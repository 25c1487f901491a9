import ZramUpgrade.Lib.Absorb
import ZramUpgrade.Lib.BitStack
import ZramUpgrade.Lib.Loop
import ZramUpgrade.Lib.Mem
import ZramUpgrade.Zstd.Xxh64
import ZramUpgrade.Zstd.Xxh64Refine
import ZramUpgrade.Lz4.Primitives
import ZramUpgrade.Lz4.Compress
import ZramUpgrade.Lz4.Decompress
import ZramUpgrade.Lz4.Driver
import ZramUpgrade.Lz4.Block
import ZramUpgrade.Lz4.Decode
import ZramUpgrade.Lz4.Encode
import ZramUpgrade.Lz4.RoundTrip
import ZramUpgrade.Lz4.History
import ZramUpgrade.Lib.Script
import ZramUpgrade.Zram.Kernel
import ZramUpgrade.Zram.Apply
import ZramUpgrade.Zram.Switch
import ZramUpgrade.Zram.Boot
import ZramUpgrade.Zram.Verify
import ZramUpgrade.Lib.Ledger
import ZramUpgrade.Zstd.Bitstream
import ZramUpgrade.Zstd.Fse
import ZramUpgrade.Zstd.NCountRead
import ZramUpgrade.Zstd.Context
import ZramUpgrade.Zstd.Driver
import ZramUpgrade.Lz4.Plain
import ZramUpgrade.Lz4.SourceBytes
import ZramUpgrade.Lib.Text
import ZramUpgrade.Zram.Menu
import ZramUpgrade.Zram.Vermagic
import ZramUpgrade.Zram.Crypto
import ZramUpgrade.Zram.KernelCheck
import ZramUpgrade.Zstd.EncodingType
import ZramUpgrade.Zstd.SeqBuild
import ZramUpgrade.Zstd.Frame
