import T2Sde.Lib.Words
import T2Sde.Lib.Prog
/-!
# `scripts/Download`

| here | `scripts/Download` |
| --- | --- |
| `cksumChk`          | `cksum_chk` :216 |
| `downloadFile`      | `download_file` :334, up to its lock |
| `lockedPart`        | `download_file` :358-457 |
| `obtain`            | the alternative directory and the mirror :416-451 |
| `verify`, `testCksum` | unsigning and "Checksum testing" :460-493 |
| `unlock`            | `rm -f "$lkfile"; trap INT` |
| `downloadFileNow`   | `download_file_now` :502 |
| `fetch`             | its `http` branch :539-626 |
| `checkout`          | its version control branch :628-742 |
| `package`           | `package` :832 |
| `sourceFile`        | `source_file`, `scripts/functions.in` :1304 |
| `getCompressor`     | `get_compressor`, `scripts/functions.in` :875 |

A function is a program over the file-system steps it takes (`Op`); `eff` is what a step does to the
files. What curl, file(1), find, gpg and the version control programs do is an answer from outside
(`Ans`): any status, any data. The decompressors and checksum programs are functions of the content
(`Tools`). The variables `gzfile`, `location`, `cksum` are arguments, `downloaderror` is the result:
`true` where the function sets it. The tree of `-alt-dir` and the home directory are no part of
`files`. File names have no blanks and no glob characters. Left out: `mkdir`, the messages but the
four of `Msg`, `src/Download-Errors`, the URL translation and the curl options.
-/
namespace T2Sde.Download
open Shell

abbrev Bytes := List UInt8

/-- The messages after which a `[D]` line can be left without its file and without an error. -/
inductive Msg
  | lockFound | questionable | typeMismatch | unsignFailed
  deriving DecidableEq, Repr

/-- `-alt-dir` files are linked, copied or moved. -/
inductive AltCopy
  | link | copy | move
  deriving DecidableEq, Repr

/-- The steps of the script. -/
inductive Op
  /-- `[ -s p ]` -/
  | nonEmpty (p : Text)
  /-- `[ -f p ]` -/
  | isFile (p : Text)
  /-- `> p` -/
  | truncate (p : Text)
  | write (p : Text) (b : Bytes)
  | rm (p : Text)
  | mv (p q : Text)
  | curl (resume : Bool) (url out : Text)
  /-- `file p` -/
  | fileType (p : Text)
  /-- `read mirror mirrorver < download/Mirror-Cache` -/
  | mirrorCache
  | findAlt (dir base : Text)
  | copyAlt (how : AltCopy) (alt gz : Text)
  /-- `[ -e p ]` in the home or alternative directory. -/
  | present (p : Text)
  /-- The checkout and what follows it up to the archive: done and enough files. -/
  | checkout (location gz : Text)
  /-- `tar | compressor > $tarname; mv $tarname $gzfile` -/
  | pack (gz : Text)
  | gpg (p q : Text)
  /-- `$compressor < p > q` -/
  | decompress (cmd p q : Text)
  /-- `type -p` -/
  | hasCommand (cmd : Text)
  /-- The first column of `$cksum p`. -/
  | digest (cmd p : Text)
  | say (m : Msg) (gz : Text)
  /-- `trap … INT`, `trap INT` -/
  | trapInt (on : Bool)
  deriving DecidableEq

@[reducible] def Res : Op → Type
  | .nonEmpty _ | .isFile _ | .present _ | .checkout .. | .hasCommand _ | .copyAlt .. | .pack _ => Bool
  | .curl .. => Nat
  | .fileType _ | .mirrorCache | .digest .. => Text
  | .findAlt .. => Option Text
  | _ => Unit

/-- What the outside answers to a step: a yes or no, a status, a text, the new content of a file. -/
structure Ans where
  yes : Bool
  status : Nat
  text : Text
  data : Option Bytes

/-- The decompressors and the checksum programs. -/
structure Tools where
  decompress : Text → Bytes → Bytes
  digest : Text → Bytes → Text

abbrev Event := (o : Op) × Res o

structure World where
  files : Text → Option Bytes
  /-- The checksums computed: the program, the content, what it printed. -/
  digests : List (Text × Bytes × Text)
  /-- The steps of the run so far. -/
  trace : List Event

def hasData : Option Bytes → Bool
  | some (_ :: _) => true
  | _ => false

/-- What a step does to the files and checksums, and its result. -/
def effect (T : Tools) (o : Op) (w : World) (a : Ans) : World × Res o :=
  match o with
  | .nonEmpty p => (w, hasData (w.files p))
  | .isFile p => (w, (w.files p).isSome)
  | .truncate p => ({ w with files := upd w.files p (some []) }, ())
  | .write p b => ({ w with files := upd w.files p (some b) }, ())
  | .rm p => ({ w with files := upd w.files p none }, ())
  | .mv p q =>
    match w.files p with
    | some b => ({ w with files := upd (upd w.files p none) q (some b) }, ())
    | none => (w, ())
  | .curl _ _ out => ({ w with files := upd w.files out a.data }, a.status)
  | .fileType _ => (w, a.text)
  | .mirrorCache => (w, a.text)
  | .findAlt _ _ => (w, if a.text = [] then none else some a.text)
  | .copyAlt _ _ gz => ({ w with files := upd w.files gz a.data }, hasData a.data)
  | .present _ => (w, a.yes)
  | .checkout _ _ => (w, a.yes)
  | .pack gz => ({ w with files := upd w.files gz a.data }, hasData a.data)
  | .gpg _ q => ({ w with files := upd w.files q a.data }, ())
  | .decompress cmd p q =>
    match w.files p with
    | some b => ({ w with files := upd w.files q (some (T.decompress cmd b)) }, ())
    | none => (w, ())
  | .hasCommand _ => (w, a.yes)
  | .digest cmd p =>
    match w.files p with
    | some b => ({ w with digests := (cmd, b, T.digest cmd b) :: w.digests }, T.digest cmd b)
    | none => (w, [])
  | .say _ _ => (w, ())
  | .trapInt _ => (w, ())

def World.log (w : World) (e : Event) : World := { w with trace := w.trace ++ [e] }

/-- A step, written down. -/
def eff (T : Tools) (o : Op) (w : World) (a : Ans) : World × Res o :=
  ((effect T o w a).1.log ⟨o, (effect T o w a).2⟩, (effect T o w a).2)

abbrev P := Prog Op Res

abbrev act (o : Op) : P (Res o) := Prog.act o

/-! ## Texts -/

/-- `${t#p}` for a literal `p`. -/
def dropPrefix (p t : Text) : Text := if p.isPrefixOf t then t.drop p.length else t

/-- `${t%p}` for a literal `p`. -/
def dropSuffix (p t : Text) : Text := if p.isSuffixOf t then t.take (t.length - p.length) else t

/-- `${t##*c}` -/
def afterLast (c : Char) (t : Text) : Text := (t.reverse.takeWhile (· ≠ c)).reverse

/-- `${t%c*}` -/
def beforeLast (c : Char) (t : Text) : Text :=
  if c ∈ t then ((t.reverse.dropWhile (· ≠ c)).drop 1).reverse else t

/-- `${t%%p*}` -/
def beforeFirst (p : Text) : Text → Text
  | [] => []
  | c :: t => if p.isPrefixOf (c :: t) then [] else c :: beforeFirst p t

def hasExt (exts : List String) (t : Text) : Bool := exts.any fun e => e.toList.isSuffixOf t

def getCompressor (gz : Text) : Option Text :=
  if hasExt [".bz2", ".tbz2"] gz then some "bzip2 -d".toList
  else if hasExt [".gz", ".tgz"] gz then some "gzip -d".toList
  else if hasExt [".lz"] gz then some "lzip -d".toList
  else if hasExt [".lzma"] gz then some "lzma -d".toList
  else if hasExt [".xz", ".txz"] gz then some "xz -d".toList
  else if hasExt [".Z"] gz then some "compress -d".toList
  else if hasExt [".zst"] gz then some "zstd -d".toList
  else if hasExt [".br"] gz then some "brotli -d".toList
  else none

/-- A pattern of `typeexpr`: the characters allowed at each place. -/
abbrev Pattern := List (List Char)

def literal (s : String) : Pattern := s.toList.map fun c => [c]

def Pattern.starts : Pattern → Text → Bool
  | [], _ => true
  | _ :: _, [] => false
  | cs :: p, c :: t => cs.contains c && Pattern.starts p t

/-- `case t in *p*` -/
def Pattern.within (p : Pattern) (t : Text) : Bool := t.tails.any p.starts

/-- `typeexpr` and `typeexpr2` -/
def typeexprs (gz : Text) : List Pattern :=
  if hasExt [".br", ".tbr"] gz then [literal "data"]
  else if hasExt [".gz", ".tgz"] gz then [literal "gzip compressed data"]
  else if hasExt [".bz2", ".tbz2", ".tbz"] gz then [literal "bzip2 compressed data"]
  else if hasExt [".lz", ".tlz"] gz then [literal "lzip compressed data"]
  else if hasExt [".lzma"] gz then [literal "LZMA compressed data"]
  else if hasExt [".zst", ".tzst", ".zstd"] gz then [literal "Zstandard compressed data"]
  else if hasExt [".Z", ".tZ"] gz then [literal "compress'd data"]
  else if hasExt [".zip"] gz then [literal "Zip archive data", literal "Microsoft OOXML"]
  else if hasExt [".jar"] gz then [literal "Java archive data (JAR)"]
  else if hasExt [".tar"] gz then [literal "tar archive"]
  else if hasExt [".xz", ".txz"] gz then [[['x', 'X'], ['z', 'Z']] ++ literal " compressed data"]
  else [literal "."]

/-- A `[D]` line, as `read cksum file url` splits it. -/
structure DLine where
  cksum : Text
  file : Text
  url : Text
  cksumWord : IsWord cksum
  fileWord : IsWord file

/-- `source_file cksum file url`, outside of Build-Pkg. -/
def sourceFile (file url : Text) : Text :=
  let mirror := if "-".toList.isPrefixOf url then "local" else "mirror"
  "download/".toList ++ mirror.toList ++ "/".toList ++ file.take 1 ++ "/".toList ++ file

def DLine.gzfile (l : DLine) : Text := sourceFile l.file l.url

/-- The location with its optional `-` prefix removed. -/
def DLine.location (l : DLine) : Text := dropPrefix "-".toList l.url

def lockFile (gz : Text) : Text := "src/down.lockfile.".toList ++ gz.map fun c => if c = '/' then '-' else c

def incomplete (gz : Text) : Text := gz ++ ".incomplete".toList
def cksumErr (gz : Text) : Text := gz ++ ".cksum-err".toList
def extckErr (gz : Text) : Text := gz ++ ".extck-err".toList

/-- `src/down.$$.dat` -/
def tempFile (pid : Text) : Text := "src/down.".toList ++ pid ++ ".dat".toList

structure Opts where
  checkonly : Bool
  nocheck : Bool
  tryques : Bool
  altdir : Text
  altcopy : AltCopy
  home : Text
  /-- `$$` -/
  pid : Text
  pidDigits : pid ≠ [] ∧ pid.all Char.isDigit = true

/-! ## Checksums -/

/-- The type of a checksum and the checksum itself. -/
def cksumType (y : Text) : Text × Text :=
  let ck := beforeLast '}' y
  let ck := if ck ≠ y then dropPrefix ['{'] ck
    else if ck.length = 56 then "sha224".toList
    else if ck.length = 64 then "sha256".toList
    else "ck".toList
  (ck, dropPrefix (['{'] ++ ck ++ ['}']) y)

/-- The checksum program, as its own command or as one of `shasum`. -/
def cksumCommand (ck : Text) (own : Bool) : Text :=
  let cksum := ck ++ "sum".toList
  if own then cksum else "shasum -a ".toList ++ dropSuffix "sum".toList (dropPrefix "sha".toList cksum)

/-- The checksum is all `0` or all `X`. -/
def noCksum (y : Text) : Bool := y.all (· == '0') || y.all (· == 'X')

/-- `cksum_chk x y gz`; the result is its success. -/
def cksumChk (o : Opts) (x y gz : Text) : P Bool :=
  if o.nocheck || noCksum y then pure true
  else do
    let own ← act (.hasCommand ((cksumType y).1 ++ "sum".toList))
    let sum ← act (.digest (cksumCommand (cksumType y).1 own) x)
    if sum ≠ (cksumType y).2 then do
      act (.mv gz (cksumErr gz))
      pure false
    else pure true

/-! ## Fetching -/

/-- Create URL. -/
def urlOf (location gz : Text) : Text :=
  if "manual://".toList.isPrefixOf location then location
  else if "!".toList.isPrefixOf location then location.drop 1
  else beforeLast '/' location ++ "/".toList ++ afterLast '/' gz

def isWeb (url : Text) : Bool :=
  ["http://", "https://", "ftp://", "file://"].any fun s => s.toList.isPrefixOf url

/-- "Resuming download not possible" -/
def curlAgain (resume : Bool) (ret : Nat) (url gz : Text) : P Nat :=
  if resume && (ret == 33 || ret == 36) then do
    act (.rm (incomplete gz))
    act (.curl false url (incomplete gz))
  else pure ret

/-- With curl; the result is success. -/
def fetch (url gz : Text) : P Bool := do
  let resume ← act (.nonEmpty (incomplete gz))
  let ret ← act (.curl resume url (incomplete gz))
  let ret ← curlAgain resume ret url gz
  if ret ≠ 0 then pure false
  else do
    let data ← act (.nonEmpty (incomplete gz))
    if !data then pure false
    else do
      let typ ← act (.fileType (incomplete gz))
      if (typeexprs gz).any fun p => p.within typ then do
        act (.mv (incomplete gz) gz)
        pure true
      else do
        act (.say .typeMismatch gz)
        act (.mv (incomplete gz) (extckErr gz))
        pure true

def knownProtocol (p : Text) : Bool :=
  p == "cvs".toList ||
    ["svn", "git", "hg"].any fun s => p == s.toList || (s.toList ++ "+".toList).isPrefixOf p

def checkout (location url gz : Text) : P Bool :=
  if !knownProtocol (beforeFirst "://".toList url) then pure false
  else do
    let done ← act (.checkout location gz)
    if !done then pure false
    else do
      let _ ← act (.pack gz)
      pure true

/-- `download_file_now` for a location that is not `manual://`. -/
def downloadFrom (location gz : Text) : P Bool :=
  if isWeb (urlOf location gz) then fetch (urlOf location gz) gz
  else checkout location (urlOf location gz) gz

def downloadFileNow (o : Opts) (location gz : Text) : P Bool :=
  if "manual://".toList.isPrefixOf (urlOf location gz) then do
    let path := if o.altdir ≠ [] then o.altdir else o.home
    let have' ← act (.present (path ++ "/".toList ++ afterLast '/' gz))
    if have' then downloadFrom ("file://".toList ++ path ++ "/".toList) gz else pure false
  else downloadFrom location gz

/-! ## One file -/

def unlock (gz : Text) (downloaderror : Bool) : P Bool := do
  act (.rm (lockFile gz))
  act (.trapInt false)
  pure downloaderror

/-- "Checksum testing" -/
def testCksum (o : Opts) (cksum gz : Text) : P Bool :=
  match getCompressor gz with
  | some cmd => do
    act (.decompress cmd gz (tempFile o.pid))
    let ok ← cksumChk o (tempFile o.pid) cksum gz
    act (.rm (tempFile o.pid))
    pure ok
  | none => cksumChk o gz cksum gz

/-- From "Checksum testing" on, for `gz` or what is in it; the lock is that of `lk`. -/
def compare (o : Opts) (cksum lk gz : Text) : P Bool := do
  let ok ← testCksum o cksum gz
  unlock lk (!ok)

def isSigned (gz : Text) : Bool := ".gpg".toList.isSuffixOf gz

/-- The file that is compared: for a signed one the file inside. -/
def checkedName (gz : Text) : Text := if isSigned gz then dropSuffix ".gpg".toList gz else gz

/-- "Unsigning GnuPG file" -/
def unsign (gz : Text) : P Unit := do
  let there ← act (.isFile gz)
  if there then act (.gpg gz (checkedName gz)) else pure ()

/-- From "unsign .gpg file" on. -/
def verify (o : Opts) (cksum gz : Text) : P Bool :=
  if isSigned gz then do
    unsign gz
    let made ← act (.isFile (checkedName gz))
    if !made then do
      act (.say .unsignFailed gz)
      unlock gz false
    else compare o cksum gz (checkedName gz)
  else compare o cksum gz gz

def findAltfile (o : Opts) (gz : Text) : P (Option Text) :=
  if o.altdir ≠ [] then act (.findAlt o.altdir (afterLast '/' gz)) else pure none

/-- The alternative directory, the mirror, the original URL; the result is `downloaderror`. -/
def obtain (o : Opts) (location gz : Text) : P Bool := do
  let alt ← findAltfile o gz
  match alt with
  | some alt => do
    let _ ← act (.copyAlt o.altcopy alt gz)
    pure false
  | none => do
    let mirror ← act .mirrorCache
    if mirror ≠ [] && mirror ≠ "none".toList && "download/mirror/".toList.isPrefixOf gz then do
      let ok ← downloadFileNow o ("!".toList ++ mirror ++ "/".toList ++ dropPrefix "download/mirror/".toList gz) gz
      if ok then pure false
      else do
        let ok ← downloadFileNow o location gz
        pure (!ok)
    else do
      let ok ← downloadFileNow o location gz
      pure (!ok)

/-- Behind the lock. -/
def lockedPart (o : Opts) (cksum location gz : Text) : P Bool :=
  if o.checkonly then do
    let there ← act (.isFile gz)
    if !there then unlock gz true
    else if "X".toList.isPrefixOf cksum || cksum == "0".toList then unlock gz false
    else verify o cksum gz
  else do
    let there ← act (.nonEmpty gz)
    if there then verify o cksum gz
    else do
      let bad ← act (.nonEmpty (cksumErr gz))
      if bad then unlock gz true
      else do
        let bad ← act (.nonEmpty (extckErr gz))
        if bad then unlock gz true
        else if "?".toList.isPrefixOf location && !o.tryques then do
          act (.say .questionable gz)
          unlock gz false
        else do
          let err ← obtain o (dropPrefix "?".toList location) gz
          let there ← act (.nonEmpty gz)
          if !there then unlock gz err
          else do
            let err' ← verify o cksum gz
            pure (err || err')

/-- `download_file`; the result is whether it sets `downloaderror`. -/
def downloadFile (o : Opts) (l : DLine) : P Bool := do
  let gz := l.gzfile
  let there ← act (.nonEmpty gz)
  if there && !o.checkonly then pure false
  else do
    let locked ← act (.nonEmpty (lockFile gz))
    if locked then do
      act (.say .lockFound gz)
      pure false
    else do
      act (.trapInt true)
      act (.truncate (lockFile gz))
      act (.write (lockFile gz) (o.pid.map fun c => UInt8.ofNat c.toNat))
      lockedPart o l.cksum l.location gz

/-- The read loop over the `[D]` lines; the result is `downloaderror`, the exit status. -/
def package (o : Opts) : List DLine → P Bool
  | [] => pure false
  | l :: ls => do
    let err ← downloadFile o l
    let err' ← package o ls
    pure (err || err')

/-! ## A line and its answers -/

/-- The checksum of a file is its content. -/
def plainTools : Tools := ⟨fun _ b => b, fun _ b => b.map fun x => Char.ofNat x.toNat⟩

def defaultOpts : Opts where
  checkonly := false
  nocheck := false
  tryques := false
  altdir := []
  altcopy := .link
  home := "/root".toList
  pid := "77".toList
  pidDigits := by decide

def noFiles : Text → Option Bytes := fun _ => none

/-- A line of the description of zlib. -/
def zlib (cksum file url : String) (hc : IsWord cksum.toList) (hf : IsWord file.toList) : DLine :=
  ⟨cksum.toList, file.toList, url.toList, hc, hf⟩

theorem word_a : IsWord "a".toList := by decide

theorem word_zlib : IsWord "zlib".toList := by decide

def zlibPlain : DLine := zlib "a" "zlib" "http://zlib.net/" word_a word_zlib

/-- Nothing comes of a step. -/
def quiet : Ans := ⟨false, 0, [], none⟩

def texts (s : String) : Ans := { quiet with text := s.toList }

/-- curl brings the file `a`. -/
def sends : Ans := { quiet with data := some [97] }

/-- A file is fetched: up to what file(1) says of it. -/
def fetched : List Ans := List.replicate 12 sends ++ [texts "ASCII text."]

end T2Sde.Download
