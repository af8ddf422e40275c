import XCryptoSsh.AuthenticatedStream

namespace XCryptoSsh
open Go Crypto Call List
set_option autoImplicit true

theorem readFull_of_append {pre rest : Bytes} {c : C} (h : pre.length = n) :
    readFull n (c, (⟨pre ++ rest, e⟩ : Reader Err)) = (.ok pre, c, ⟨rest, e⟩) := by
  have hn : n ≤ (pre ++ rest).length := by
    rw [length_append]
    omega
  simp only [readFull, Reader.readFull, if_pos hn, take_left' h, drop_left' h]

theorem StreamPacketCipher.readPacket_tooLarge {s : StreamPacketCipher} (seqNum : Nat)
    (packet padding rest : Bytes) (e : Err) (hn : packet.length ≤ maxPacket)
    (hl : maxPacket < packet.length + 1 + s.paddingLength packet.length) (b : Slice) :
    (readPacket seqNum ({ s with packetData := b },
      ⟨s.wire seqNum packet padding ++ rest, e⟩)).1 =
        .error (.text "ssh: invalid packet length, packet too large") := by
  have hb := s.paddingLength_bounds packet.length
  have h5 : (s.prefixXor (s.header packet.length)).1.length = prefixLen := length_prefixXor _ _
  have hpx : StreamPacketCipher.prefixXor { s with packetData := b }
      (s.prefixXor (s.header packet.length)).1 = (s.header packet.length, _) :=
    prefixXor_prefixXor (s := s) rfl
  have hlt : packet.length + 1 + s.paddingLength packet.length < 2 ^ 32 := by
    simp only [maxPacket] at hn
    omega
  rw [readPacket, wire, append_assoc, bind_of_ok (readFull_of_append h5),
    bind_of_ok (xorPrefix_eq _ _), hpx, bind_of_ok (x := self) rfl, take_header s hlt, getD_header,
    readBody, failIf_bind_of_not, failIf_bind_of hl]
  rw [u32_of_lt (by omega)]
  simp only [maxPacket] at hl
  omega

namespace GcmCipher

variable {c : GcmCipher}

theorem writePacket_ok {k : Sink Err} (hi : c.iv.length = 12) (hn : c.aead.nonceSize = 12)
    (h : writePacket seqNum packet (c, k) = (.ok u, t))
    (hpad : padding = k.rand.bytes.take (paddingLength packet.length).toNat) :
    packet.length + 1 + (paddingLength packet.length).toNat < 2 ^ 32 ∧
      padding.length = (paddingLength packet.length).toNat ∧
      t.2.w.out = k.w.out ++ c.wire packet padding := by
  have hrun := h
  have hb := paddingLength_bounds packet.length
  obtain ⟨_, _, h₁, h⟩ := bind_eq_ok.mp h
  obtain ⟨hf, rfl⟩ := write_eq_ok.mp h₁
  obtain ⟨_, ⟨c', k'⟩, h₂, h⟩ := bind_eq_ok.mp h
  obtain ⟨hbl, hrand⟩ := of_wp (Q := fun _ t => t.1.buf.len = _ ∧ t.2.rand = k.rand)
    (E := fun _ => False) h₂ (wp_resize_of fun b hb _ => ⟨hb, rfl⟩)
  rw [self_bind] at h
  obtain ⟨_, -, h⟩ := inRange_bind_eq_ok.mp h
  obtain ⟨_, -, h⟩ := inRange_bind_eq_ok.mp h
  obtain ⟨p, hp, h⟩ := inRange_bind_eq_ok.mp h
  rw [update_bind] at h
  obtain ⟨_, _, h₈, h⟩ := bind_eq_ok.mp h
  obtain ⟨hr, -⟩ := readRand_eq_ok.mp h₈
  obtain ⟨hle, hpl⟩ := Slice.of_downFrom hp
  change 1 + packet.length ≤ c'.buf.len at hle
  change p.len = c'.buf.len - (1 + packet.length) at hpl
  change k'.rand = k.rand at hrand
  change c'.buf.len = u32 _ at hbl
  rw [u32] at hbl
  have hlt : packet.length + 1 + (paddingLength packet.length).toNat < 2 ^ 32 := by omega
  have hlen : padding.length = (paddingLength packet.length).toNat :=
    hpad ▸ length_take_of_le (by rw [hrand] at hr; omega)
  refine ⟨hlt, hlen, ?_⟩
  have hw := c.writePacket_wire seqNum k.w.out
    (k.rand.bytes.drop (paddingLength packet.length).toNat) k.rand.final hi hn hlt hlen
  rw [hpad, take_append_drop, ← hpad] at hw
  have hk : k = ⟨⟨k.w.out, none⟩, ⟨k.rand.bytes, k.rand.final⟩⟩ := by rw [← hf]
  rw [hk] at hrun
  obtain ⟨b, rfl⟩ := of_wp hrun hw
  rfl

theorem readPacket_tooLarge (seqNum : Nat) (rest : Bytes) (e : Err) (hlt : n < 2 ^ 32)
    (hl : maxPacket < n) :
    (readPacket seqNum (c, ⟨putUint32 n ++ rest, e⟩)).1 =
      .error (.text "ssh: max packet length exceeded.") := by
  have hr : readPlain (c, ⟨putUint32 n ++ rest, e⟩) =
      (.error (.text "ssh: max packet length exceeded."), (c, ⟨rest, e⟩)) := by
    rw [readPlain, bind_of_ok (readFull_of_append (length_putUint32 _)), failIf_bind_of]
    rwa [bigEndianUint32_putUint32 hlt]
  rw [readPacket, bind_of_error hr]

end GcmCipher

namespace PacketCipher

/-- The error of a reader that finds a length field above `maxPacket`. -/
def tooLarge : PacketCipher → Err
  | .stream _ => .text "ssh: invalid packet length, packet too large"
  | .gcm _ => .text "ssh: max packet length exceeded."
  | .cbc _ => .cbcError "ssh: packet too large"

def Refused (seqNum : Nat) (r : PacketCipher) (wire : Bytes) : Prop :=
  ∃ rest e, (readPacket seqNum (r, ⟨wire ++ rest, e⟩)).1 = .error r.tooLarge

theorem not_refused_of_ok (h : ∀ rest e, ∃ p t, readPacket seqNum (r, ⟨wire ++ rest, e⟩) =
    (.ok p, t)) : ¬Refused seqNum r wire := by
  rintro ⟨rest, e, hx⟩
  obtain ⟨p, t, hy⟩ := h rest e
  rw [hy] at hx
  cases hx

theorem refused_stream {s : StreamPacketCipher} {k : Sink Err} (hin : InStep (.stream s) r)
    (hr : Ready r) (h1 : 1 ≤ packet.length)
    (hw : StreamPacketCipher.writePacket seqNum packet (s, k) = (.ok u, t))
    (hout : t.2.w.out = k.w.out ++ wire) :
    Refused seqNum r wire ↔ maxPacket < packet.length + 1 + s.paddingLength packet.length := by
  obtain ⟨b, rfl⟩ := inStep_stream hin
  obtain ⟨hn, hp, -, ho⟩ := StreamPacketCipher.writePacket_ok hw rfl
  cases append_cancel_left (hout.symm.trans ho)
  constructor
  · refine not_imp_not.mp fun hl => not_refused_of_ok fun rest e => ?_
    have hread := s.readPacket_wire seqNum rest e hr h1 (Nat.not_lt.mp hl) hp b
    obtain ⟨_, _, hy, -⟩ := wp_returns_iff.mp hread
    exact ⟨_, _, within_eq hy⟩
  · exact fun hl => ⟨[], .eof, s.readPacket_tooLarge seqNum _ _ _ _ hn hl b⟩

theorem refused_gcm {c : GcmCipher} {k : Sink Err} (hin : InStep (.gcm c) r) (hr : Ready r)
    (h1 : 1 ≤ packet.length) (hw : GcmCipher.writePacket seqNum packet (c, k) = (.ok u, t))
    (hout : t.2.w.out = k.w.out ++ wire) :
    Refused seqNum r wire ↔
      maxPacket < packet.length + 1 + (GcmCipher.paddingLength packet.length).toNat := by
  obtain ⟨b, rfl⟩ := inStep_gcm hin
  obtain ⟨hlt, hp, ho⟩ := GcmCipher.writePacket_ok (c := c) hr.iv hr.nonceSize hw rfl
  cases append_cancel_left (hout.symm.trans ho)
  constructor
  · refine not_imp_not.mp fun hl => not_refused_of_ok fun rest e => ?_
    have hread := c.readPacket_wire seqNum rest e hr h1 (Nat.not_lt.mp hl) hp
    obtain ⟨_, _, hy, -⟩ := wp_returns_iff.mp hread
    exact ⟨_, _, within_eq hy⟩
  · intro hl
    refine ⟨[], .eof, ?_⟩
    rw [GcmCipher.wire, GcmCipher.lengthField, append_assoc, u32_of_lt (by omega)]
    exact GcmCipher.readPacket_tooLarge seqNum _ _ (by omega) (by omega)

theorem refused_cbc {c : CbcCipher} {k : Sink Err} (hin : InStep (.cbc c) r) (hr : Ready r)
    (h1 : 1 ≤ packet.length) (hw : CbcCipher.writePacket seqNum packet (c, k) = (.ok u, t))
    (hout : t.2.w.out = k.w.out ++ wire) :
    Refused seqNum r wire ↔ maxPacket < packet.length + 1 + c.paddingLength packet.length := by
  obtain ⟨r, rfl, hmac, hmc, hdec⟩ := inStep_cbc hin
  obtain ⟨hlo, hp, x, m, b, he, -, ho⟩ := CbcCipher.writePacket_ok hw rfl
  cases append_cancel_left (hout.symm.trans ho)
  constructor
  · refine not_imp_not.mp fun hl => not_refused_of_ok fun rest e => ?_
    have hread := c.readPacket_wire seqNum rest e hr.1 hdec hmac (hmac ▸ hr.2) h1
      (Nat.not_lt.mp hl) hp he
    obtain ⟨_, _, hy, -⟩ := wp_returns_iff.mp hread
    exact ⟨_, _, within_eq hy⟩
  · intro hl
    have hb : c.encrypter.block.size = 8 ∨ c.encrypter.block.size = 16 := hdec ▸ hr.1.block
    have hlt := c.encLength_lt packet.length
    simp only [CbcCipher.paddingLength, maxPacket] at hl
    obtain ⟨x₁, x₂, m₁, rfl, hlx, -, hd, -⟩ := CbcCipher.encrypt_plaintext (by omega)
      (CbcCipher.encLength_mod hb _) (CbcCipher.length_plaintext hlo hp) he
    obtain ⟨z, hz⟩ := c.take_plaintext packet _ (n := c.encrypter.block.size) (by omega)
    rw [← hdec] at hlx
    rw [← hdec, ← take_left' hlx] at hd
    refine ⟨[], .eof, ?_⟩
    rw [append_assoc, append_assoc]
    refine CbcCipher.readPacket_tooLarge hr.1 ?_ hd ?_
    · rw [length_append]
      omega
    rw [hdec, hz, take_left' (length_putUint32 _), bigEndianUint32_putUint32 (by omega)]
    simp only [maxPacket]
    omega

/-- A reader in step with the writer does not refuse the frame of an accepted packet as too large
exactly when packet and padding, with its length, fit into `maxPacket`. -/
theorem not_refused_iff {k k' : Sink Err} (hin : InStep w r) (hr : Ready r)
    (h1 : 1 ≤ packet.length) (hw : writePacket seqNum packet (w, k) = (.ok (), w', k'))
    (hout : k'.w.out = k.w.out ++ wire) :
    (∀ rest e, (readPacket seqNum (r, ⟨wire ++ rest, e⟩)).1 ≠ .error r.tooLarge) ↔
      w.framedLength packet.length ≤ maxPacket := by
  have hrefused : Refused seqNum r wire ↔ maxPacket < w.framedLength packet.length := by
    cases w with
    | stream s =>
      obtain ⟨_, hx, -⟩ := of_within hw
      exact refused_stream hin hr h1 hx hout
    | gcm c =>
      obtain ⟨_, hx, -⟩ := of_within hw
      exact refused_gcm hin hr h1 hx hout
    | cbc c =>
      obtain ⟨_, hx, -⟩ := of_within hw
      exact refused_cbc hin hr h1 hx hout
  rw [← Nat.not_lt, ← hrefused]
  simp only [Refused, not_exists, ne_eq]

theorem not_refused_plainEtm :
    ∃ wire, (writePacket 0 [1, 2, 3] (plainEtm, echoSink)).2.2.w.out = wire ∧
      ∀ rest e, (readPacket 0 (plainEtm, ⟨wire ++ rest, e⟩)).1 ≠ .error plainEtm.tooLarge := by
  have hstep : InStep plainEtm plainEtm := ⟨rfl, rfl, rfl⟩
  have hready : Ready plainEtm := fun m hm => by cases hm; decide
  have hrun : (writePacket 0 [1, 2, 3] (plainEtm, echoSink)).1.test (fun _ => true) = true := by
    decide +kernel
  obtain ⟨_, t, hw, -⟩ := exists_of_test (x := writePacket 0 [1, 2, 3]) hrun
  refine ⟨_, rfl, (not_refused_iff hstep hready (by decide) hw ?_).mpr (by decide)⟩
  rw [hw]
  rfl

/-- The largest packets that the stream ciphers' writer takes. -/
theorem refused_plainEtm : ∃ packet w' k', packet.length = maxPacket ∧
    writePacket 0 packet (plainEtm, echoSink) = (.ok (), w', k') ∧
      (readPacket 0 (plainEtm, ⟨k'.w.out, .eof⟩)).1 = .error plainEtm.tooLarge := by
  obtain ⟨packet, hn⟩ : ∃ packet : Bytes, packet.length = maxPacket :=
    ⟨replicate maxPacket 7, length_replicate⟩
  let s : StreamPacketCipher := ⟨some (zeroMac 32), .keyed (fun _ => 0) 0, true, Slice.make 0⟩
  have hpad : s.paddingLength maxPacket = 15 := by decide
  have hp : (replicate 15 (7 : UInt8)).length = s.paddingLength packet.length := by
    rw [hn, hpad, length_replicate]
  have hw := s.writePacket_wire 0 [] (replicate 49 7) .eof hn.le hp
  obtain ⟨_, t, hx, rfl⟩ := wp_returns_iff.mp hw
  have hr := s.readPacket_tooLarge 0 packet (replicate 15 7) [] .eof hn.le
    (by rw [hn, hpad]; decide) (Slice.make 0)
  rw [append_nil] at hr
  exact ⟨packet, _, _, hn, within_eq hx, hr⟩

end PacketCipher

end XCryptoSsh
