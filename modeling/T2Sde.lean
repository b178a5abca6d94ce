import T2Sde.Lib.Words
import T2Sde.Lib.Run
import T2Sde.Lib.Prog
import T2Sde.Scheduler.Loop
import T2Sde.Scheduler.Invariant
import T2Sde.Scheduler.Safety
import T2Sde.Scheduler.JobBound
import T2Sde.Scheduler.WorkList
import T2Sde.Scheduler.Completion
import T2Sde.Emerge.Closure
import T2Sde.Emerge.Visit
import T2Sde.Emerge.Frames
import T2Sde.Emerge.Bound
import T2Sde.Emerge.Indirect
import T2Sde.Emerge.DepthLimit
import T2Sde.Emerge.Alternatives
import T2Sde.Download.Model
import T2Sde.Download.Frame
import T2Sde.Download.Status
import T2Sde.Download.Trust
import T2Sde.Download.Lock
import T2Sde.Config.Model
import T2Sde.Config.Readers
import T2Sde.Lib.Pattern
import T2Sde.Lib.Lua
import T2Sde.Desc.PkgList
import T2Sde.Packages.Table
import T2Sde.Packages.Line
import T2Sde.Packages.Switch
import T2Sde.Packages.Printed
import T2Sde.Packages.RoundTrip
import T2Sde.Packages.Default
import T2Sde.Packages.Removed
import T2Sde.Packages.Rules
import T2Sde.Lib.Read
import T2Sde.Lib.Glob
import T2Sde.Lib.Grep
import T2Sde.Lib.Cut
import T2Sde.Lib.Tree
import T2Sde.Desc.Parse
import T2Sde.Desc.Overlay
import T2Sde.Desc.Lookup
import T2Sde.Desc.Synonyms
import T2Sde.Desc.Sources
import T2Sde.Desc.Listing
import T2Sde.Wrapper.Others
import T2Sde.Wrapper.Generate
import T2Sde.Wrapper.Guard
import T2Sde.Wrapper.Log
import T2Sde.Bize.Bundle
import T2Sde.Bize.Names
import T2Sde.Iso.Fill
import T2Sde.Desc.Flags
import T2Sde.Bize.Remove
import T2Sde.Bize.Uninstall
import T2Sde.Bize.Keep
import T2Sde.Lib.Joined
import T2Sde.Build.Vars
import T2Sde.Build.Hooks
import T2Sde.Build.Archives
import T2Sde.Desc.PerFile
import T2Sde.Wrapper.Args
import T2Sde.Lib.Quote
import T2Sde.Lib.Sed
import T2Sde.Config.Write
import T2Sde.Config.Set
import T2Sde.Build.Detect
import T2Sde.Build.Depend
import T2Sde.Build.Chksum
import T2Sde.Wrapper.Cond
import T2Sde.Wrapper.Filter
import T2Sde.Wrapper.Path
import T2Sde.Build.Orphans
import T2Sde.Packages.Wildcard
import T2Sde.Packages.Include
import T2Sde.Wrapper.RealPath
import T2Sde.Build.Regex
import T2Sde.Wrapper.Confined
import T2Sde.Lib.Stdio
import T2Sde.Strace.Parse
import T2Sde.Strace.Track
import T2Sde.Initrd.Lvm
import T2Sde.Wrapper.FilterDir
import T2Sde.Rocknet.Registry
import T2Sde.Lib.Decimal
import T2Sde.Rocknet.Order
import T2Sde.Rocknet.Section
import T2Sde.Config.Choice
import T2Sde.Config.Menus
import T2Sde.Misc.Getopt
import T2Sde.Misc.Menubox
import T2Sde.Misc.Serpnp
import T2Sde.Misc.Lzlib
import T2Sde.Misc.Hooks
import T2Sde.Wrapper.Install
import T2Sde.Wrapper.Clean
import T2Sde.Wrapper.Ptree
import T2Sde.Wrapper.Bounds
import T2Sde.Build.Libtool
import T2Sde.Lib.Reach
import T2Sde.Initrd.Depend
import T2Sde.Download.MirrorCache
import T2Sde.Lib.Cycle
import T2Sde.Scheduler.Acyclic
import T2Sde.Scheduler.Greedy
import T2Sde.Scheduler.Stages
import T2Sde.Scheduler.Barrier
import T2Sde.Packages.Gas
import T2Sde.Emerge.Build
import T2Sde.Config.Cycle
import T2Sde.Misc.Inputbox
import T2Sde.Build.Flist
import T2Sde.Lib.Unpack
import T2Sde.Bize.Install
import T2Sde.Bize.History
import T2Sde.Lib.Window
import T2Sde.Misc.Textbox
import T2Sde.Misc.Checklist
import T2Sde.Initrd.Libs
import T2Sde.Lib.Between
import T2Sde.Rocknet.Switch
