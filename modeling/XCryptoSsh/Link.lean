import XCryptoSsh.CipherRoundTrip
import XCryptoSsh.Negotiation

namespace XCryptoSsh
open Go Call PacketCipher
set_option autoImplicit true

def supportedCompressions : List String := ["none"]

/-- The lists of a `Config`, as `SetDefaults` has left them. -/
structure Config where
  keyExchanges : List String
  ciphers : List String
  macs : List String

/-- The name lists that `sendKexInit` sends. -/
def Config.kexInit (c : Config) (hostKeyAlgos : List String) : KexInitMsg where
  kexAlgos := c.keyExchanges
  serverHostKeyAlgos := hostKeyAlgos
  ciphersClientServer := c.ciphers
  ciphersServerClient := c.ciphers
  macsClientServer := c.macs
  macsServerClient := c.macs
  compressionClientServer := supportedCompressions
  compressionServerClient := supportedCompressions

/-- Ends of this package offer one list for both directions, so each end can read what the other
writes. -/
theorem keyed_both_ways (client server : Config) (hc hs : List String)
    (ha : findAgreedAlgorithms (client.kexInit hc) (server.kexInit hs) = .ok algs)
    (hk : prepareKeyChange P true algs kex () = (.ok (reader, writer), ())) :
    ∃ reader' writer', prepareKeyChange P false algs kex () = (.ok (reader', writer'), ()) ∧
      Ready reader' ∧ InStep writer reader' ∧ Ready reader ∧ InStep writer' reader := by
  simp only [prepareKeyChange, keyChange, (agreed_eq_iff "" ha).mpr ⟨rfl, rfl, rfl⟩,
    bind_eq_ok] at hk ⊢
  obtain ⟨r, ⟨⟩, hr, w, ⟨⟩, hw, h⟩ := hk
  cases h
  obtain ⟨hwr, hws⟩ := ready_of_built (newPacketCipher_built hw)
  obtain ⟨hrr, hrs⟩ := ready_of_built (newPacketCipher_built hr)
  exact ⟨writer, reader, ⟨writer, (), hw, reader, (), hr, rfl⟩, hwr, hws, hrr, hrs⟩

def etmConfig : Config :=
  ⟨["ecdh-sha2-nistp256"], ["aes128-ctr"], ["hmac-sha2-256-etm@openssh.com"]⟩

theorem keyed_both_ways_etm :
    ∃ r w, prepareKeyChange plainPrimitives false
        ⟨"ecdh-sha2-nistp256", "ssh-rsa", etmAlgorithms, etmAlgorithms⟩ zeroKex () =
          (.ok (r, w), ()) ∧
      Ready r ∧ InStep plainEtm r ∧ Ready plainEtm ∧ InStep w plainEtm :=
  keyed_both_ways etmConfig etmConfig ["ssh-rsa"] ["ssh-rsa"] rfl rfl

end XCryptoSsh
