import Xqemu.Lib.BitField
import Xqemu.Lib.ByteMemory
import Xqemu.Lib.Simulation
import Xqemu.Lib.ListSeg
import Xqemu.Lib.ArrayStack
import Xqemu.Lib.ZeroByte
import Xqemu.Lib.Scan
import Xqemu.Lib.TwosComplement
import Xqemu.Lib.NonRestoring
import Xqemu.Lib.ErrorsIn
import Xqemu.Lib.BitDeposit
import Xqemu.Lib.Rounding
import Xqemu.Lib.ByteTransfer
import Xqemu.Lib.WordBits
import Xqemu.Lib.Radix
import Xqemu.Lib.PendingIter
import Xqemu.Lib.BitReverse
import Xqemu.Nv2a.Dma
import Xqemu.Nv2a.Pfifo.State
import Xqemu.Nv2a.Pfifo.Pusher
import Xqemu.Nv2a.Pfifo.Puller
import Xqemu.Nv2a.Pfifo.Cache1
import Xqemu.Nv2a.Pfifo.System
import Xqemu.Nv2a.Pfifo.Handoff
import Xqemu.Nv2a.Pfifo.Decoder
import Xqemu.Nv2a.Lru
import Xqemu.Nv2a.Swizzle
import Xqemu.Nv2a.SwizzleMasks
import Xqemu.Nv2a.SwizzleRect
import Xqemu.Nv2a.Texture
import Xqemu.Nv2a.TextureLayout
import Xqemu.Nv2a.TextureReads
import Xqemu.Nv2a.TextureCache
import Xqemu.Nv2a.InlineBatch
import Xqemu.Nv2a.DrawArrays
import Xqemu.Nv2a.Combiner
import Xqemu.Nv2a.Vsh
import Xqemu.Dsp.Core
import Xqemu.Dsp.Loop
import Xqemu.Dsp.Rep
import Xqemu.Dsp.SystemStack
import Xqemu.Dsp.Alu
import Xqemu.Dsp.Mul
import Xqemu.Dsp.Round
import Xqemu.Dsp.Shift
import Xqemu.Dsp.Compare
import Xqemu.Dsp.Address
import Xqemu.Dsp.Div
import Xqemu.Dsp.Dma
import Xqemu.Util.Uleb128
import Xqemu.Util.HostUtils
import Xqemu.Util.Hbitmap
import Xqemu.Util.HbitmapUpdate
import Xqemu.Util.HbitmapResize
import Xqemu.Util.HbitmapSearch
import Xqemu.Util.HbitmapSerialize
import Xqemu.Util.HbitmapValid
import Xqemu.Util.HbitmapIter
import Xqemu.Util.HbitmapCoherent
import Xqemu.Util.HbitmapInterleave
import Xqemu.Util.HbitmapCount
import Xqemu.Util.HbitmapTruncate
import Xqemu.Util.HbitmapMerge
import Xqemu.Util.HbitmapRun
import Xqemu.Util.HbitmapRoundTrip
import Xqemu.Util.HbitmapQuery
import Xqemu.Qobject.JsonStreamer
import Xqemu.Qobject.JsonMessages
import Xqemu.Migration.Xbzrle
import Xqemu.Migration.XbzrleCorrect
import Xqemu.Migration.XbzrleDecode
import Xqemu.Smbus.XboxSmc
import Xqemu.Apu.ScatterGather
import Xqemu.Apu.Fifo
import Xqemu.Apu.Voice
import Xqemu.Apu.VoiceList
import Xqemu.Apu.VoiceWalk
