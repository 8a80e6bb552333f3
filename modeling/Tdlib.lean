import Tdlib.E2e.BitStringList
import Tdlib.E2e.TrieSnapshot
import Tdlib.E2e.ChainRights
import Tdlib.E2e.ClientReads
import Tdlib.E2e.CallReplay
import Tdlib.E2e.CallAgreement
import Tdlib.E2e.CallEpochs
import Tdlib.Binlog.Crash
import Tdlib.Binlog.Unfinished
import Tdlib.KeyValue.Concurrent
import Tdlib.TQueue.Restart
import Tdlib.Text.FixTwice
import Tdlib.Text.Utf16Slices
import Tdlib.Text.CleanInput
import Tdlib.Url.CanonicalUrl
import Tdlib.Json.RoundTrip
import Tdlib.Base64
import Tdlib.Mtproto.DuplicateChecker
import Tdlib.TlCodec
import Tdlib.Files.PartsStreaming
import Tdlib.Files.PartsUnknown
import Tdlib.Updates.PtsRuns
import Tdlib.Updates.QtsRuns
import Tdlib.Text.Encodings
import Tdlib.MpscPollableQueue
import Tdlib.E2e.Contact
import Tdlib.Crc32c
import Tdlib.FindBoundary
