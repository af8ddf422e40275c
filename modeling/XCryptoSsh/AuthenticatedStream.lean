import XCryptoSsh.CipherRoundTrip

namespace XCryptoSsh
open Go Crypto Call Slice List
set_option autoImplicit true

theorem Stream.snd_xorKeyStream (c : Stream) {a b : Bytes} (h : a.length = b.length) :
    (c.xorKeyStream a).2 = (c.xorKeyStream b).2 := by
  cases c with
  | noneCipher => rfl
  | keyed ks pos => rw [Stream.xorKeyStream, Stream.xorKeyStream, h]

namespace StreamPacketCipher

variable {s : StreamPacketCipher}

section

variable (s : StreamPacketCipher)

theorem snd_prefixXor {a b : Bytes} (h : a.length = b.length) :
    (s.prefixXor a).2 = (s.prefixXor b).2 := by
  simp only [prefixXor]
  split
  · exact Stream.snd_xorKeyStream _ (by rw [length_drop, length_drop, h])
  · exact Stream.snd_xorKeyStream _ h

def macBody (packet padding : Bytes) : Bytes :=
  if s.etm then (s.prefixXor (s.header packet.length)).1 ++ (s.sealedBody packet padding).1
  else s.header packet.length ++ (packet ++ padding)

def readPrefix (input : Bytes) : Bytes × Stream :=
  s.prefixXor (input.take prefixLen)

def readLength (input : Bytes) : Nat :=
  bigEndianUint32 ((s.readPrefix input).1.take 4)

def readPadding (input : Bytes) : Nat :=
  ((s.readPrefix input).1.getD 4 0).toNat

def readPlain (input : Bytes) : Bytes × Stream :=
  (s.readPrefix input).2.xorKeyStream ((input.drop prefixLen).take (s.readLength input - 1))

def macHead (seqNum : Nat) (input : Bytes) : Bytes :=
  putUint32 seqNum ++ if s.etm then (s.readPrefix input).1.take 4 ++ (input.take prefixLen).drop 4
    else (s.readPrefix input).1

def macCheck (seqNum : Nat) (input : Bytes) : Bytes × Bytes :=
  (s.macHead seqNum input ++ if s.etm then (input.drop prefixLen).take (s.readLength input - 1)
      else (s.readPlain input).1,
    ((input.drop prefixLen).drop (s.readLength input - 1)).take s.macSize)

theorem take_macCheck (seqNum : Nat) (input : Bytes) :
    (s.macCheck seqNum input).1.take 4 = putUint32 seqNum := by
  simp only [macCheck, macHead, append_assoc]
  exact take_left' (length_putUint32 _)

end

theorem xorPrefix_eq (pre : Bytes) (k : ρ) :
    xorPrefix pre (s, k) =
      (.ok (s.prefixXor pre).1, { s with cipher := (s.prefixXor pre).2 }, k) := by
  obtain ⟨_, _, hx, rfl, rfl⟩ := wp_returns_iff.mp (wp_xorPrefix (s := s) (k := k)
    (Q := fun a t => a = _ ∧ t = _) (E := fun _ => False) |>.mpr ⟨rfl, rfl⟩)
  exact hx

theorem writePacket_ok {k : Sink Err} (h : writePacket seqNum packet (s, k) = (.ok u, t))
    (hpad : padding = k.rand.bytes.take (s.paddingLength packet.length)) :
    packet.length ≤ maxPacket ∧ padding.length = s.paddingLength packet.length ∧
      t.1 = { s with cipher := (s.sealedBody packet padding).2 } ∧
      t.2.w.out = k.w.out ++ s.wire seqNum packet padding := by
  have hrun := h
  obtain ⟨_, _, h₁, h⟩ := bind_eq_ok.mp h
  obtain ⟨hl, rfl⟩ := failIf_eq_ok.mp h₁
  rw [self_bind] at h
  obtain ⟨_, -, h⟩ := inRange_bind_eq_ok.mp h
  obtain ⟨_, _, h₄, h⟩ := bind_eq_ok.mp h
  obtain ⟨hr, -, rfl⟩ := readRand_eq_ok.mp h₄
  obtain ⟨_, _, h₅, h⟩ := bind_eq_ok.mp h
  cases (xorPrefix_eq _ _).symm.trans h₅
  obtain ⟨_, _, h₆, h⟩ := bind_eq_ok.mp h
  cases h₆
  obtain ⟨_, _, h₇, h⟩ := bind_eq_ok.mp h
  cases h₇
  obtain ⟨_, _, h₈, h⟩ := bind_eq_ok.mp h
  obtain ⟨hf, -⟩ := write_eq_ok.mp h₈
  have hl := Nat.not_lt.mp hl
  have hp := hpad ▸ length_take_of_le hr
  have hw := s.writePacket_wire seqNum k.w.out (k.rand.bytes.drop (s.paddingLength packet.length))
    k.rand.final hl hp
  rw [hpad, take_append_drop, ← hpad] at hw
  have hk : k = ⟨⟨k.w.out, none⟩, ⟨k.rand.bytes, k.rand.final⟩⟩ := by rw [← hf]
  rw [hk] at hrun
  have ht := of_wp hrun hw
  rw [ht]
  exact ⟨hl, hp, rfl, rfl⟩

structure Accepts (s : StreamPacketCipher) (seqNum : Nat) (input packet : Bytes) (c : Stream) :
    Prop where
  enough : prefixLen ≤ input.length
  body : BodyOk { s with cipher := (s.readPrefix input).2 } (s.macHead seqNum input)
    (s.readLength input) (s.readPadding input) (input.drop prefixLen)
  packet_eq : packet = (s.readPlain input).1.take (s.readLength input - s.readPadding input - 1)
  cipher_eq : c = (s.readPlain input).2

theorem readPacket_ok {r : Reader Err} (hm : ∀ m, s.mac = some m → m.size ≤ 32)
    (h : readPacket seqNum (s, r) = (.ok packet, t)) :
    ∃ c b, Accepts s seqNum r.bytes packet c ∧ t.1 = { s with cipher := c, packetData := b } := by
  refine of_wp (Q := fun p t => ∃ c b, Accepts s seqNum r.bytes p c ∧
    t.1 = { s with cipher := c, packetData := b }) (E := fun _ => True) h ?_
  simp only [readPacket, wp_bind, wp_readFull]
  refine ⟨fun h5 => ?_, fun _ => trivial⟩
  have h4 : ((s.readPrefix r.bytes).1.take 4).length = 4 := by
    rw [length_take, readPrefix, length_prefixXor, length_take_of_le h5]
    rfl
  rw [wp_xorPrefix]
  simp only [wp_bind, wp_self]
  exact wp_readBody_of (macSize_le hm) (bigEndianUint32_lt h4) (UInt8.toNat_lt _)
    (fun _ _ _ => trivial) fun b ho => ⟨_, b, ⟨h5, ho, rfl, rfl⟩, rfl⟩

theorem Accepts.verified (h : Accepts s seqNum input packet c) (hm : s.mac = some m) :
    m.sum (s.macCheck seqNum input).1 = (s.macCheck seqNum input).2 :=
  h.body.tag m hm

theorem Accepts.opened (h : Accepts s seqNum input packet c) (hm : s.mac = some m)
    (hc : (s.macCheck seqNum input).1 = putUint32 seqNum ++ s.macBody sent padding) :
    (s.readPrefix input).1 = s.header sent.length ∧ (s.readPlain input).1 = sent ++ padding := by
  have h5 : (input.take prefixLen).length = prefixLen := length_take_of_le h.enough
  have hh : (s.header sent.length).length = prefixLen := rfl
  have hc' := append_cancel_left ((append_assoc _ _ _).symm.trans hc)
  by_cases he : s.etm = true
  · have het : s.encryptThenMac = true := by rw [encryptThenMac, hm, he]; rfl
    have hraw : (s.readPrefix input).1.take 4 ++ (input.take prefixLen).drop 4 =
        input.take prefixLen := by
      simp only [readPrefix, prefixXor, het, if_true]
      rw [take_left', take_append_drop]
      rw [length_take, h5]
      rfl
    simp only [macBody, he, if_true, hraw] at hc'
    obtain ⟨hr, hd⟩ := append_inj hc' (by rw [h5, length_prefixXor, hh])
    rw [readPlain, hd, readPrefix, hr, prefixXor_prefixXor hh]
    exact ⟨rfl, congrArg Prod.fst (Stream.xorKeyStream_xorKeyStream _ _)⟩
  · simp only [macBody, he, Bool.false_eq_true, if_false] at hc'
    exact append_inj hc' (by rw [readPrefix, length_prefixXor, h5, hh])

theorem Accepts.packet_of_check (h : Accepts s seqNum input packet c) (hm : s.mac = some m)
    (hl : sent.length ≤ maxPacket)
    (hc : (s.macCheck seqNum input).1 = putUint32 seqNum ++ s.macBody sent padding) :
    packet = sent ∧ c = (s.sealedBody sent padding).2 := by
  have h5 : (input.take prefixLen).length = prefixLen := length_take_of_le h.enough
  have hb := s.paddingLength_bounds sent.length
  obtain ⟨hpre, hplain⟩ := h.opened hm hc
  have hlt : sent.length + 1 + s.paddingLength sent.length < 2 ^ 32 := by
    simp only [maxPacket] at hl
    omega
  have hlen : s.readLength input = sent.length + 1 + s.paddingLength sent.length := by
    rw [readLength, hpre, take_header s hlt]
  have hpad : s.readPadding input = s.paddingLength sent.length := by
    rw [readPadding, hpre, getD_header]
  refine ⟨?_, ?_⟩
  · rw [h.packet_eq, hplain, hlen, hpad]
    exact take_left' (by omega)
  have hsame := congrArg length hplain
  rw [readPlain, length_xorKeyStream] at hsame
  rw [h.cipher_eq, sealedBody, readPlain, readPrefix,
    s.snd_prefixXor (b := s.header sent.length) (by rw [h5]; rfl)]
  exact Stream.snd_xorKeyStream _ hsame

end StreamPacketCipher

namespace CbcCipher

variable {c w : CbcCipher}

def macCheck (c : CbcCipher) (seqNum : Nat) (input : Bytes) : Option (Bytes × Bytes) := do
  let size := c.decrypter.block.size
  let first ← c.decrypter.decrypt (input.take size)
  let n := 4 + bigEndianUint32 (first.1.take 4) - size
  let rest ← first.2.decrypt ((input.drop size).take n)
  pure (putUint32 seqNum ++ (first.1 ++ rest.1), ((input.drop size).drop n).take c.macSize)

theorem resizeCap_ok {k : ρ} (h : resizeCap n size (c, k) = (.ok u, t)) :
    ∃ b : Slice, b.len = n ∧ t = ({ c with packetData := b }, k) := by
  rw [resizeCap, self_bind] at h
  obtain ⟨b, hb, h⟩ := inRange_bind_eq_ok.mp h
  cases h
  refine ⟨b, ?_, rfl⟩
  split at hb
  · exact len_of_makeCap hb
  · exact len_of_upTo hb

theorem encLength_lt (c : CbcCipher) (n : Nat) : c.encLength n < 2 ^ 32 := by
  simp only [encLength, u32]
  exact Nat.mod_lt _ (Nat.two_pow_pos 32)

theorem paddingByte_eq (hlo : n + 5 ≤ c.encLength n) :
    UInt8.ofNat ((((c.encLength n - 4 : Nat) : Int) - (1 + (n : Int))) % 256).toNat =
      UInt8.ofNat (c.paddingLength n) := by
  have hi : ((((c.encLength n - 4 : Nat) : Int) - (1 + (n : Int))) % 256).toNat =
      c.paddingLength n % 256 := by
    rw [paddingLength]
    omega
  apply UInt8.toNat_inj.mp
  rw [hi, UInt8.toNat_ofNat', UInt8.toNat_ofNat']
  exact Nat.mod_mod _ _

theorem encryptUpTo_ok {k : ρ} (hd : c.packetData.data = plain ++ y) (hl : plain.length = n)
    (h : encryptUpTo n (c, k) = (.ok u, t)) :
    ∃ x m, ∃ b : Slice, c.encrypter.encrypt plain = some (x, m) ∧ b.data = x ++ y ∧
      t = ({ c with packetData := b, encrypter := m }, k) := by
  obtain ⟨src, hs, hsd⟩ := upTo_of_data hd hl
  rw [encryptUpTo, self_bind] at h
  obtain ⟨_, hs', h⟩ := inRange_bind_eq_ok.mp h
  cases hs.symm.trans hs'
  obtain ⟨x, he, h⟩ := inRange_bind_eq_ok.mp h
  cases h
  rw [hsd] at he
  exact ⟨x.1, x.2, _, he, data_store_append hd (CbcMode.length_of_encrypt he), rfl⟩

theorem writePacket_ok {k : Sink Err} (h : writePacket seqNum packet (c, k) = (.ok u, t))
    (hpad : padding = k.rand.bytes.take (c.paddingLength packet.length)) :
    packet.length + 5 ≤ c.encLength packet.length ∧
      padding.length = c.paddingLength packet.length ∧
      ∃ x m b, c.encrypter.encrypt (c.plaintext packet padding) = some (x, m) ∧
        t.1 = { c with packetData := b, encrypter := m } ∧
        t.2.w.out = k.w.out ++ (x ++ c.tag seqNum packet padding) := by
  rw [writePacket, self_bind] at h
  obtain ⟨_, _, h₂, h⟩ := bind_eq_ok.mp h
  obtain ⟨b, hbl, rfl⟩ := resizeCap_ok h₂
  rw [self_bind] at h
  obtain ⟨p₁, hd₁, h⟩ := inRange_bind_eq_ok.mp h
  obtain ⟨_, -, h⟩ := inRange_bind_eq_ok.mp h
  obtain ⟨p₂, hd₂, h⟩ := inRange_bind_eq_ok.mp h
  obtain ⟨p₃, hd₃, h⟩ := inRange_bind_eq_ok.mp h
  rw [update_bind] at h
  obtain ⟨random, _, h₉, h⟩ := bind_eq_ok.mp h
  obtain ⟨hr, hrandom, rfl⟩ := readRand_eq_ok.mp h₉
  obtain ⟨hle₁, hl₁⟩ := of_downFrom hd₁
  obtain ⟨hle₂, hl₂⟩ := of_downFrom hd₂
  obtain ⟨hle₃, hl₃⟩ := of_downFrom hd₃
  have hlt := c.encLength_lt packet.length
  change b.len = c.encLength packet.length at hbl
  change 4 ≤ b.len at hle₁
  change p₁.len = b.len - 4 at hl₁
  have hlo : packet.length + 5 ≤ c.encLength packet.length := by omega
  have hp₃ : p₃.len = c.paddingLength packet.length := by
    rw [paddingLength]
    omega
  rw [hp₃] at hr hrandom
  cases hrandom.trans hpad.symm
  have hpl : padding.length = c.paddingLength packet.length := hpad ▸ length_take_of_le hr
  rw [update_bind, update_bind] at h
  rw [subU32_of_le (by omega) hlt, paddingByte_eq hlo] at h
  dsimp only at h
  obtain ⟨b', hb', hd'⟩ := appendMac_eq seqNum { c with
    packetData := (b.store 0 (putUint32 (c.encLength packet.length - 4) ++
      [UInt8.ofNat (c.paddingLength packet.length)] ++ packet)).store (prefixLen + packet.length)
      padding }
  rw [hb'] at h
  simp only [data_fill hbl hlo hpl] at hd'
  obtain ⟨_, _, h₁₂, h⟩ := bind_eq_ok.mp h
  obtain ⟨x, m, b₁, he, hb₁, rfl⟩ := encryptUpTo_ok hd' (length_plaintext hlo hpl) h₁₂
  rw [self_bind] at h
  obtain ⟨-, rfl⟩ := write_eq_ok.mp h
  exact ⟨hlo, hpl, x, m, b₁, he, rfl, congrArg (k.w.out ++ ·) hb₁⟩

/-- What `readPacket` checked of its input before it returned a packet: the first block, the
blocks that follow it, and the tag behind them. -/
structure Accepts (c : CbcCipher) (seqNum : Nat) (input packet first rest tag : Bytes) :
    Prop where
  check_eq : c.macCheck seqNum input = some (putUint32 seqNum ++ (first ++ rest), tag)
  verified : ∀ m, c.mac = some m → m.sum (putUint32 seqNum ++ (first ++ rest)) = tag
  lengths : LengthsOk c.decrypter.block.size (bigEndianUint32 (first.take 4))
    (first.getD 4 0).toNat
  length_first : first.length = c.decrypter.block.size
  length_body : (first ++ rest).length = 4 + bigEndianUint32 (first.take 4)
  packet_eq : packet = ((first ++ rest).take (4 + bigEndianUint32 (first.take 4) -
    (first.getD 4 0).toNat)).drop prefixLen

def Same (c c' : CbcCipher) : Prop :=
  c'.mac = c.mac ∧ c'.macSize = c.macSize ∧ c'.decrypter.block = c.decrypter.block

theorem readPacketLeaky_of_readPacket {r : Reader Err}
    (h : readPacket seqNum (c, r) = (.ok packet, t)) :
    readPacketLeaky seqNum (c, r) = (.ok packet, t) := by
  simp only [readPacket] at h
  split at h
  · cases h
  · exact h

theorem readPacket_ok {r : Reader Err} (hc : c.Sized)
    (h : readPacket seqNum (c, r) = (.ok packet, t)) :
    Same c t.1 ∧ t.1.Sized ∧ ∃ first rest tag, Accepts c seqNum r.bytes packet first rest tag := by
  refine of_wp (Q := fun p t => Same c t.1 ∧ t.1.Sized ∧ ∃ first rest tag,
    Accepts c seqNum r.bytes p first rest tag) (E := fun _ => True)
    (readPacketLeaky_of_readPacket h) ?_
  simp only [readPacketLeaky, wp_bind, wp_self]
  apply wp_readFirstBlock_of hc (fun _ _ _ => trivial)
  intro p m b first n hr hd hfd hfl hfa hcap _
  have hb := hc.block
  have hm := CbcMode.block_decrypt hd
  have hlf : p.length = c.decrypter.block.size := by rw [← hfd, first.length_data, hfl]
  have hp : p = p.take 4 ++ p.drop 4 := (take_append_drop 4 p).symm
  have h4 : (p.take 4).length = 4 := length_take_of_le (by omega)
  obtain ⟨lb, hlb, hlbd⟩ := upTo_of_data (hfd.trans hp) h4
  have hidx : first.index 4 = some (p.getD 4 0) := by
    rw [Slice.index, hfd, getElem?_eq_getElem (by omega), getD_eq_getElem _ _ (by omega)]
  simp only [wp_bind, wp_inRange]
  refine ⟨lb, hlb, _, hidx, ?_⟩
  have hs : ({ c with packetData := b, decrypter := m, oracleCamouflage := n } : CbcCipher).Sized :=
    ⟨hm ▸ hb, hc.macSize, hcap⟩
  rw [hlbd]
  apply wp_checkLengths_of hb (UInt8.toNat_lt _) _ fun _ => trivial
  intro hok
  refine wp_readRest_of hs (hm ▸ hfl.symm) (hfl ▸ hok) hfa (fun _ _ _ => trivial)
    (fun _ _ _ _ _ _ _ _ => trivial) ?_
  intro q m' b' n' hlen hd' hmac hcap' _
  have hm' := (CbcMode.block_decrypt hd').trans hm
  rw [hfd] at hmac ⊢
  rw [hfl] at hd' hmac
  refine ⟨⟨rfl, rfl, hm'⟩, ⟨hm' ▸ hb, hc.macSize, hcap'⟩, p, q, _, ?_, hmac, hok, hlf, ?_, rfl⟩
  · simp only [macCheck, hd, hd', bind, Option.bind, pure]
  have hmin := hok.min_le
  have hle : 4 + bigEndianUint32 (p.take 4) - c.decrypter.block.size ≤
      (r.bytes.drop c.decrypter.block.size).length := by
    simp only [] at hlen
    omega
  rw [length_append, hlf, CbcMode.length_of_decrypt hd', length_take_of_le hle]
  omega

theorem Accepts.packet_of_check (h : Accepts c seqNum input packet first rest y)
    (hb : w.encrypter.block.size = 8 ∨ w.encrypter.block.size = 16)
    (hw : c.decrypter.block.size = w.encrypter.block.size)
    (hlo : sent.length + 5 ≤ w.encLength sent.length)
    (hp : padding.length = w.paddingLength sent.length)
    (hbody : first ++ rest = w.plaintext sent padding) :
    packet = sent := by
  have hlen := h.length_body
  have hmax := h.lengths.le_max
  have hlf := h.length_first
  rw [hbody, length_plaintext hlo hp] at hlen
  obtain ⟨hlo', hhi, -⟩ := encLength_bounds (n := sent.length) hb (by omega)
  obtain ⟨z, hz⟩ := w.take_plaintext sent padding (n := first.length) (by omega)
  rw [← hbody, take_left] at hz
  have hpad : (first.getD 4 0).toNat = w.paddingLength sent.length := by
    rw [hz]
    exact toNat_paddingLength hlo' hhi
  have hfield : bigEndianUint32 (first.take 4) = w.encLength sent.length - 4 := by omega
  rw [h.packet_eq, hbody, hpad, hfield]
  exact drop_take_plaintext hlo'

end CbcCipher

namespace PacketCipher

def mac : PacketCipher → Option Mac
  | .stream s => s.mac
  | .gcm _ => none
  | .cbc c => c.mac

def macBody : PacketCipher → Bytes → Bytes → Bytes
  | .stream s, packet, padding => s.macBody packet padding
  | .gcm _, _, _ => []
  | .cbc c, packet, padding => c.plaintext packet padding

def macCheck : PacketCipher → Nat → Bytes → Option (Bytes × Bytes)
  | .stream s, seqNum, input => some (s.macCheck seqNum input)
  | .gcm _, _, _ => none
  | .cbc c, seqNum, input => c.macCheck seqNum input

def padding (c : PacketCipher) (k : Sink Err) (packet : Bytes) : Bytes :=
  k.rand.bytes.take (c.paddingLength packet.length)

def macInput (seqNum : Nat) (packet : Bytes) (s : PacketCipher × Sink Err) : Bytes :=
  putUint32 seqNum ++ s.1.macBody packet (s.1.padding s.2 packet)

def macInputs (seqNum : Nat) : List Bytes → PacketCipher × Sink Err → List Bytes
  | [], _ => []
  | p :: ps, s => macInput seqNum p s :: macInputs (u32 (seqNum + 1)) ps (writePacket seqNum p s).2

structure Received where
  packet : Bytes
  check : Option (Bytes × Bytes)

/-- The packets that the reader returns before its first error, out of `n` calls. -/
def received (seqNum : Nat) : Nat → PacketCipher × Reader Err → List Received
  | 0, _ => []
  | n + 1, s =>
    match readPacket seqNum s with
    | (.ok p, s') => ⟨p, s.1.macCheck seqNum s.2.bytes⟩ :: received (u32 (seqNum + 1)) n s'
    | _ => []

/-- No tag that the reader found right is a forgery: the sender computed it for that message. -/
def Unforged (m : Mac) (sent : List Bytes) (rs : List Received) : Prop :=
  ∀ x ∈ rs, ∀ y ∈ x.check, m.sum y.1 = y.2 → y.1 ∈ sent

instance : Decidable (Unforged m sent rs) :=
  inferInstanceAs (Decidable (∀ x ∈ rs, ∀ y ∈ x.check, m.sum y.1 = y.2 → y.1 ∈ sent))

/-- What keeps the next messages of reader and writer comparable. The MAC of CBC covers the
plaintext, so the chaining value does not matter. -/
def Follows : PacketCipher → PacketCipher → Prop
  | .stream w, .stream r => r.mac = w.mac ∧ r.cipher = w.cipher ∧ r.etm = w.etm
  | .cbc w, .cbc r => r.mac = w.mac ∧ r.decrypter.block = w.encrypter.block
  | _, _ => False

theorem follows_of_inStep (h : InStep w r) (hm : w.mac = some m) : Follows w r := by
  cases w with
  | stream w =>
    obtain ⟨b, rfl⟩ := inStep_stream h
    exact ⟨rfl, rfl, rfl⟩
  | gcm w => cases hm
  | cbc w =>
    obtain ⟨r, rfl, hmac, -, hdec⟩ := inStep_cbc h
    exact ⟨hmac, hdec ▸ rfl⟩

/-- What an accepted packet is, should its message be the one of the packet that the writer
writes under the same sequence number. -/
def Matches (seqNum : Nat) (w r' : PacketCipher) (packet message : Bytes) : Prop :=
  ∀ sent k u t, writePacket seqNum sent (w, k) = (.ok u, t) →
    message = macInput seqNum sent (w, k) → packet = sent ∧ Follows t.1 r'

/-- A packet is accepted only on a verified message, which starts with the sequence number and
determines the packet. -/
structure Verified (m : Mac) (seqNum : Nat) (w r : PacketCipher) (input packet : Bytes)
    (r' : PacketCipher) (message tag : Bytes) : Prop where
  check_eq : r.macCheck seqNum input = some (message, tag)
  sum_eq : m.sum message = tag
  seqNum_eq : message.take 4 = putUint32 seqNum
  matching : Matches seqNum w r' packet message
  ready : Ready r'
  mac_eq : r'.mac = some m

theorem verified_stream {w s : StreamPacketCipher} {i : Reader Err}
    (hf : Follows (.stream w) (.stream s)) (hr : Ready (.stream s)) (hm : s.mac = some m)
    (h : StreamPacketCipher.readPacket seqNum (s, i) = (.ok packet, s', i')) :
    ∃ message tag, Verified m seqNum (.stream w) (.stream s) i.bytes packet (.stream s')
      message tag := by
  obtain ⟨b, hs⟩ := inStep_stream (show InStep (.stream w) (.stream s) from hf)
  cases hs
  obtain ⟨c, b', ha, hs'⟩ := StreamPacketCipher.readPacket_ok hr h
  cases hs'
  refine ⟨_, _, rfl, ha.verified hm, StreamPacketCipher.take_macCheck _ _ _, ?_, hr, hm⟩
  intro sent k u t hw hc
  obtain ⟨w', hx, hw'⟩ := of_within hw
  obtain ⟨hl, -, rfl, -⟩ := StreamPacketCipher.writePacket_ok hx rfl
  obtain ⟨hp, hcipher⟩ := ha.packet_of_check hm hl hc
  rw [hw']
  exact ⟨hp, rfl, hcipher, rfl⟩

theorem verified_cbc {w c : CbcCipher} {i : Reader Err}
    (hf : Follows (.cbc w) (.cbc c)) (hr : Ready (.cbc c)) (hm : c.mac = some m)
    (h : CbcCipher.readPacket seqNum (c, i) = (.ok packet, c', i')) :
    ∃ message tag, Verified m seqNum (.cbc w) (.cbc c) i.bytes packet (.cbc c') message tag := by
  obtain ⟨hmac, hblock⟩ := hf
  obtain ⟨⟨hsame, hsize, hdec⟩, hsized, first, rest, y, ha⟩ := CbcCipher.readPacket_ok hr.1 h
  have hready : c'.macSize = (c'.mac.map fun m => m.size).getD 0 :=
    hsize.trans (hr.2.trans (by rw [hsame]))
  refine ⟨_, y, ha.check_eq, ha.verified m hm, take_left' (length_putUint32 _), ?_,
    ⟨hsized, hready⟩, hsame.trans hm⟩
  intro sent k u t hw hc
  obtain ⟨w', hx, hw'⟩ := of_within hw
  obtain ⟨hlo, hp, x, m', b, he, rfl, -⟩ := CbcCipher.writePacket_ok hx rfl
  have hb : w.encrypter.block.size = 8 ∨ w.encrypter.block.size = 16 := hblock ▸ hr.1.block
  rw [hw']
  refine ⟨ha.packet_of_check hb (by rw [hblock]) hlo hp (append_cancel_left hc),
    hsame.trans hmac, ?_⟩
  exact hdec.trans (hblock.trans (CbcMode.block_encrypt he).symm)

theorem Follows.verified {i : Reader Err} (hf : Follows w r) (hr : Ready r) (hm : r.mac = some m)
    (h : readPacket seqNum (r, i) = (.ok packet, t)) :
    ∃ message tag, Verified m seqNum w r i.bytes packet t.1 message tag := by
  cases w with
  | stream w =>
    cases r with
    | stream s =>
      obtain ⟨s', hx, ht⟩ := of_within h
      rw [ht]
      exact verified_stream hf hr hm hx
    | gcm r | cbc r => exact hf.elim
  | gcm w => cases r <;> exact hf.elim
  | cbc w =>
    cases r with
    | stream r | gcm r => exact hf.elim
    | cbc c =>
      obtain ⟨c', hx, ht⟩ := of_within h
      rw [ht]
      exact verified_cbc hf hr hm hx

def seqOf (message : Bytes) : Nat := bigEndianUint32 (message.take 4)

theorem seqOf_of_take (h : message.take 4 = putUint32 seqNum) : seqOf message = u32 seqNum := by
  rw [seqOf, h, bigEndianUint32_putUint32_u32]

theorem seqOf_macInput (seqNum : Nat) (packet : Bytes) (s : PacketCipher × Sink Err) :
    seqOf (macInput seqNum packet s) = u32 seqNum :=
  seqOf_of_take (take_left' (length_putUint32 _))

theorem seqOf_of_mem_macInputs (h : x ∈ macInputs seqNum ps s) :
    ∃ i < ps.length, seqOf x = u32 (seqNum + i) := by
  induction ps generalizing seqNum s with
  | nil => cases h
  | cons p ps ih =>
    cases h with
    | head => exact ⟨0, Nat.zero_lt_succ _, seqOf_macInput _ _ _⟩
    | tail _ h =>
      obtain ⟨i, hi, hx⟩ := ih h
      refine ⟨i + 1, Nat.succ_lt_succ hi, hx.trans ?_⟩
      simp only [u32]
      omega

/-- `sent` holds no message under the next sequence numbers but those of the packets to come. -/
def Fresh (sent : List Bytes) (seqNum : Nat) (ps : List Bytes) (s : PacketCipher × Sink Err) :
    Prop :=
  ∀ x ∈ sent, ∀ i ≤ ps.length, seqOf x = u32 (seqNum + i) → x ∈ macInputs seqNum ps s

theorem Fresh.head (h : Fresh sent seqNum (p :: ps) s) (hn : (p :: ps).length < 2 ^ 32)
    (hx : x ∈ sent) (hseq : seqOf x = u32 seqNum) : x = macInput seqNum p s := by
  cases h x hx 0 (Nat.zero_le _) hseq with
  | head => rfl
  | tail _ hmem =>
    obtain ⟨i, hi, hs⟩ := seqOf_of_mem_macInputs hmem
    rw [length_cons] at hn
    simp only [u32] at hs hseq
    omega

theorem Fresh.tail (h : Fresh sent seqNum (p :: ps) s) (hn : (p :: ps).length < 2 ^ 32) :
    Fresh sent (u32 (seqNum + 1)) ps (writePacket seqNum p s).2 := by
  intro x hx i hi hseq
  have hs : seqOf x = u32 (seqNum + (i + 1)) := by
    simp only [u32] at hseq ⊢
    omega
  cases h x hx (i + 1) (Nat.succ_le_succ hi) hs with
  | head =>
    rw [seqOf_macInput] at hs
    rw [length_cons] at hn
    simp only [u32] at hs
    omega
  | tail _ hmem => exact hmem

theorem received_of_fresh (n : Nat) {k : Sink Err} {input : Reader Err} (hf : Follows w r)
    (hr : Ready r) (hm : r.mac = some m) (hps : ps.length < 2 ^ 32)
    (hw : writePackets seqNum ps (w, k) = (.ok (), t)) (hfresh : Fresh sent seqNum ps (w, k))
    (hu : Unforged m sent (received seqNum n (r, input))) :
    (received seqNum n (r, input)).map Received.packet <+: ps := by
  induction n generalizing w r ps seqNum k input with
  | zero => exact nil_prefix
  | succ n ih =>
    cases hx : readPacket seqNum (r, input) with
    | mk res s' =>
      cases res with
      | error e | panic =>
        simp only [received, hx]
        exact nil_prefix
      | ok p =>
        simp only [received, hx] at hu ⊢
        obtain ⟨message, tag, hv⟩ := hf.verified hr hm hx
        have hmem := hu _ (mem_cons_self ..) _ hv.check_eq hv.sum_eq
        have hseq := seqOf_of_take hv.seqNum_eq
        cases ps with
        | nil => cases hfresh message hmem 0 (Nat.zero_le _) hseq
        | cons q ps =>
          obtain ⟨_, s₁, hw₁, hws⟩ := bind_eq_ok.mp hw
          have hfresh' := hfresh.tail hps
          rw [hw₁] at hfresh'
          obtain ⟨rfl, hf'⟩ := hv.matching q k _ s₁ hw₁ (hfresh.head hps hmem hseq)
          rw [map_cons, cons_prefix_cons]
          exact ⟨rfl, ih hf' hv.ready hv.mac_eq (Nat.lt_of_succ_lt hps) hws hfresh'
            fun x hx => hu x (mem_cons_of_mem _ hx)⟩

/-- Whatever bytes a reader in step with the writer is given, it returns the first packets written,
up to its first error, unless a tag was forged. -/
theorem received_of_unforged {k : Sink Err} (hs : InStep w r) (hr : Ready r) (hm : w.mac = some m)
    (hps : ps.length < 2 ^ 32) (hw : writePackets seqNum ps (w, k) = (.ok (), t))
    (n : Nat) (input : Reader Err)
    (hu : Unforged m (macInputs seqNum ps (w, k)) (received seqNum n (r, input))) :
    (received seqNum n (r, input)).map Received.packet <+: ps := by
  have hf := follows_of_inStep hs hm
  have hmr : r.mac = some m := by
    cases w with
    | stream w =>
      obtain ⟨b, rfl⟩ := inStep_stream hs
      exact hm
    | gcm w => cases hm
    | cbc w =>
      obtain ⟨r, rfl, hmac, -⟩ := inStep_cbc hs
      exact hmac.trans hm
  exact received_of_fresh n hf hr hmr hps hw (fun _ hx _ _ _ => hx) hu

def echoMac (n : Nat) : Mac where
  size := n
  sum b := (b ++ replicate n 0).take n
  length_sum b := by
    rw [length_take_of_le]
    rw [length_append, length_replicate]
    exact Nat.le_add_left _ _

def echoEtm : PacketCipher :=
  .stream ⟨some (echoMac 32), .keyed (fun _ => 0) 0, true, Slice.make 0⟩

def echoSink : Sink Err := ⟨⟨[], none⟩, ⟨replicate 64 7, .eof⟩⟩

def replayed : Reader Err :=
  let wire := (writePacket 5 [1, 2, 3] (echoEtm, echoSink)).2.2.w.out
  ⟨wire ++ wire, .eof⟩

theorem received_of_unforged_replayed :
    Unforged (echoMac 32) (macInputs 5 [[1, 2, 3], [4]] (echoEtm, echoSink))
        (received 5 2 (echoEtm, replayed)) ∧
      (received 5 2 (echoEtm, replayed)).map Received.packet = [[1, 2, 3]] ∧
      (received 5 2 (echoEtm, replayed)).map Received.packet <+: [[1, 2, 3], [4]] := by
  have hstep : InStep echoEtm echoEtm := ⟨rfl, rfl, rfl⟩
  have hready : Ready echoEtm := by
    intro m h
    cases h
    decide
  have hrun : (writePackets 5 [[1, 2, 3], [4]] (echoEtm, echoSink)).1.test (fun _ => true) =
    true := by
    decide +kernel
  obtain ⟨_, t, hw, -⟩ := exists_of_test (x := writePackets 5 [[1, 2, 3], [4]]) hrun
  have hu : Unforged (echoMac 32) (macInputs 5 [[1, 2, 3], [4]] (echoEtm, echoSink))
      (received 5 2 (echoEtm, replayed)) := by decide +kernel
  exact ⟨hu, by decide +kernel, received_of_unforged hstep hready rfl (by decide) hw 2
    replayed hu⟩

end PacketCipher

end XCryptoSsh
