import Mwemu.Emu.ExceptionSearch
import Mwemu.Emu.RepFault
import Mwemu.Aarch64.Atomicity
import Mwemu.Serialization.Emu
import Mwemu.Registry.RegistryHandle
import Mwemu.O1Heap.Diagnostics
import Mwemu.O1Heap.History
import Mwemu.O1Heap.Snapshot
import Mwemu.Api.Heap
import Mwemu.Cache.Lines
import Mwemu.Maps.Unmap
import Mwemu.Api.VirtualProtect
import Mwemu.Minidump.Consistency
import Mwemu.Arch.FlagsRuns
import Mwemu.Engine.Division
import Mwemu.Api.Crypt32
import Mwemu.Decompress.HuffCodec
import Mwemu.Pe.ParserSafety
import Mwemu.Aarch64.Bitfield
import Mwemu.Aarch64.Transfers
import Mwemu.Kernel.Guard
import Mwemu.Kernel.LifeCycle
import Mwemu.Macos.Interleave
import Mwemu.Api.Rebase
import Mwemu.ObjectHandle.FileSystem
import Mwemu.ObjectHandle.Handles
import Mwemu.Fpu.F80
import Mwemu.ObjectHandle.WindowsPath
import Mwemu.Elf.Segments
import Mwemu.Maps.Overlaps
import Mwemu.Api.CryptoState
