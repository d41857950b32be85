import TrustedGrub.Lib.BlockHash
import TrustedGrub.Lib.Runs
import TrustedGrub.Sha1.Fips180
import TrustedGrub.Sha1.Process
import TrustedGrub.Sha1.Context
import TrustedGrub.Disk.Read
import TrustedGrub.Disk.Open
import TrustedGrub.Disk.CalculateSha1
import TrustedGrub.Disk.Measured
import TrustedGrub.Disk.Blocklist
import TrustedGrub.Disk.BlockFile
import TrustedGrub.Disk.GzipHeader
import TrustedGrub.Drive.Calls
import TrustedGrub.Ntfs.Hostile
import TrustedGrub.Ext2.Paths
import TrustedGrub.Fat.Exact
import TrustedGrub.Fat.LongName
import TrustedGrub.Fsys.ReadHook
import TrustedGrub.Reiserfs.Iteration
import TrustedGrub.Util.VerifyPcr
import TrustedGrub.Boot.CheckfileLines
import TrustedGrub.Partition.Numbering
import TrustedGrub.Partition.RoundTrip
import TrustedGrub.Xfs.Exact
import TrustedGrub.Jfs.Interleaved
import TrustedGrub.Ffs.Loaded
import TrustedGrub.Builtins.DriveMap
import TrustedGrub.Builtins.SavedEntry
import TrustedGrub.Builtins.ToggleCycle
import TrustedGrub.Menu.Password
import TrustedGrub.Menu.Stack
import TrustedGrub.Menu.Shortcuts
import TrustedGrub.Partition.Label
import TrustedGrub.Drive.Confined
import TrustedGrub.Util.Mbchk
import TrustedGrub.Menu.Stanzas
import TrustedGrub.Vstafs.Exact
import TrustedGrub.Minix.Walk
import TrustedGrub.Ntfs.Directory
import TrustedGrub.Md5.Rfc1321
import TrustedGrub.Md5.Md5crypt
import TrustedGrub.Builtins.Table
import TrustedGrub.Builtins.Fallback
import TrustedGrub.Builtins.Expanded
import TrustedGrub.Line.Bounded
import TrustedGrub.Line.Coherent
import TrustedGrub.CharIo.Number
import TrustedGrub.CharIo.Memcheck
import TrustedGrub.Loader.ProgramHeaders
import TrustedGrub.Serial.Keys
import TrustedGrub.Terminfo.RoundTrip
import TrustedGrub.Disk.NameBuffer
import TrustedGrub.Ntfs.Fixup
import TrustedGrub.Disk.Completion
import TrustedGrub.Common.Mmap
import TrustedGrub.Menu.ConfigLines
import TrustedGrub.Builtins.Partnew
import TrustedGrub.Lib.RunLength
import TrustedGrub.Boot.Start
import TrustedGrub.Builtins.Install
import TrustedGrub.Loader.Initrd
import TrustedGrub.Loader.ModuleArgs
import TrustedGrub.Loader.ModuleTokens
import TrustedGrub.Netboot.Options
import TrustedGrub.Netboot.Hang
import TrustedGrub.Menu.Search
import TrustedGrub.Menu.Navigation
import TrustedGrub.Lib.PackedEdit
import TrustedGrub.Menu.EntryEditor
import TrustedGrub.Menu.EditorRefines
