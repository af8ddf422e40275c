import XCryptoSsh.HandshakeWriteError
import XCryptoSsh.Rekey
import XCryptoSsh.Link
import XCryptoSsh.WindowLeak
import XCryptoSsh.KeyEpochs
import XCryptoSsh.PacketSize
import XCryptoSsh.GcmNonces
import XCryptoSsh.MuxTeardown
import XCryptoSsh.SourceAddress
import XCryptoSsh.PublicKeyAuth
import XCryptoSsh.KexAgreement
import XCryptoSsh.HostKeyPolicy
import XCryptoSsh.SequenceNumbers
import XCryptoSsh.RequestReply
import XCryptoSsh.ChannelOpens
import XCryptoSsh.Forwards
import XCryptoSsh.HashedHosts
import XCryptoSsh.HostPatterns
import XCryptoSsh.AuthorizedKeys
import XCryptoSsh.IdleFires
import XCryptoSsh.WriteSuccess
import XCryptoSsh.WriteTimeouts
import XCryptoSsh.MuxPackets
import XCryptoSsh.Halter
import XCryptoSsh.MuxIsolation
import XCryptoSsh.TerminalSecret
import XCryptoSsh.TerminalChunks
import XCryptoSsh.TerminalShown
import XCryptoSsh.AgentSafety
import XCryptoSsh.AuthLimits
