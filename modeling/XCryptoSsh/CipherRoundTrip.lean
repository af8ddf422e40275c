import XCryptoSsh.CipherTotal

namespace XCryptoSsh
open Go Crypto Call Slice List Option
set_option autoImplicit true

namespace Stream

theorem xorKeyStream_xorKeyStream (c : Stream) (src : Bytes) :
    c.xorKeyStream (c.xorKeyStream src).1 = (src, (c.xorKeyStream src).2) := by
  cases c with
  | noneCipher => rfl
  | keyed ks pos => simp only [xorKeyStream, xorAt_xorAt, length_xorAt]

theorem xorKeyStream_append (c : Stream) (a b : Bytes) :
    c.xorKeyStream (a ++ b) =
      ((c.xorKeyStream a).1 ++ ((c.xorKeyStream a).2.xorKeyStream b).1,
        ((c.xorKeyStream a).2.xorKeyStream b).2) := by
  cases c with
  | noneCipher => rfl
  | keyed ks pos => simp only [xorKeyStream, xorAt_append, length_append, Nat.add_assoc]

end Stream

namespace StreamPacketCipher

variable {s w : StreamPacketCipher}

def prefixXor (s : StreamPacketCipher) (pre : Bytes) : Bytes × Stream :=
  if s.encryptThenMac then
    (pre.take 4 ++ (s.cipher.xorKeyStream (pre.drop 4)).1, (s.cipher.xorKeyStream (pre.drop 4)).2)
  else s.cipher.xorKeyStream pre

theorem wp_xorPrefix {Q : Bytes → StreamPacketCipher × ρ → Prop} {E} {k : ρ} :
    (xorPrefix pre).wp Q E (s, k) ↔
      Q (s.prefixXor pre).1 ({ s with cipher := (s.prefixXor pre).2 }, k) := by
  simp only [xorPrefix, wp_bind, wp_self, wp_ite, wp_xorKeyStream, wp_pure, prefixXor]
  by_cases h : s.encryptThenMac
  · simp [h]
  · simp [h]

theorem length_prefixXor (s : StreamPacketCipher) (pre : Bytes) :
    (s.prefixXor pre).1.length = pre.length := by
  simp only [prefixXor]
  split
  · rw [length_append, length_xorKeyStream, ← length_append, take_append_drop]
  · exact length_xorKeyStream _ _

theorem prefixXor_prefixXor (h : pre.length = 5) :
    s.prefixXor (s.prefixXor pre).1 = (pre, (s.prefixXor pre).2) := by
  have h4 : (pre.take 4).length = 4 := by rw [length_take, h]; rfl
  by_cases he : s.encryptThenMac
  · simp only [prefixXor, he, if_true]
    rw [take_left' h4, drop_left' h4, Stream.xorKeyStream_xorKeyStream,
      take_append_drop]
  · simp only [prefixXor, he, if_false, Bool.false_eq_true]
    exact Stream.xorKeyStream_xorKeyStream _ _

section

variable (s : StreamPacketCipher)

def header (n : Nat) : Bytes :=
  putUint32 (u32 (n + 1 + s.paddingLength n)) ++ [UInt8.ofNat (s.paddingLength n)]

def sealedBody (packet padding : Bytes) : Bytes × Stream :=
  (s.prefixXor (s.header packet.length)).2.xorKeyStream (packet ++ padding)

def tag (seqNum : Nat) (packet padding : Bytes) : Bytes :=
  (s.mac.map fun m => m.sum (putUint32 seqNum ++
    if s.etm then (s.prefixXor (s.header packet.length)).1 ++ (s.sealedBody packet padding).1
    else s.header packet.length ++ (packet ++ padding))).getD []

def wire (seqNum : Nat) (packet padding : Bytes) : Bytes :=
  (s.prefixXor (s.header packet.length)).1 ++
    ((s.sealedBody packet padding).1 ++ s.tag seqNum packet padding)

theorem paddingLength_bounds (n : Nat) :
    4 ≤ s.paddingLength n ∧ s.paddingLength n ≤ 19 := by
  simp only [paddingLength]
  generalize prefixLen + n - (if s.encryptThenMac then 4 else 0) = m
  by_cases h : packetSizeMultiple - m % packetSizeMultiple < 4
  · rw [if_pos h]
    simp only [packetSizeMultiple] at h ⊢
    omega
  · rw [if_neg h]
    simp only [packetSizeMultiple] at h ⊢
    omega

end

theorem wp_writeMac {Q : Unit → C × Sink Err → Prop} {E} {r : Reader Err} {a : Option Mac} :
    (writeMac a d).wp Q E (c, ⟨⟨out, none⟩, r⟩) ↔
      Q () (c, ⟨⟨out ++ (a.map fun m => m.sum d).getD [], none⟩, r⟩) := by
  cases a with
  | none => simp only [writeMac, wp_pure, map_none, getD_none, append_nil]
  | some m => exact wp_write

theorem writePacket_wire (seqNum : Nat) (out more : Bytes) (e : Err)
    (hl : packet.length ≤ maxPacket) (hp : padding.length = s.paddingLength packet.length) :
    (writePacket seqNum packet).wp (fun _ t =>
      t = ({ s with cipher := (s.sealedBody packet padding).2 },
        ⟨⟨out ++ s.wire seqNum packet padding, none⟩, ⟨more, e⟩⟩))
      (fun _ => False) (s, ⟨⟨out, none⟩, ⟨padding ++ more, e⟩⟩) := by
  have hb := s.paddingLength_bounds packet.length
  simp only [writePacket, wp_bind, wp_failIf, wp_self, wp_inRange]
  refine ⟨fun h => absurd h (Nat.not_lt.mpr hl), fun _ => ⟨_, upTo_of_le ?_, ?_⟩⟩
  · rw [cap_make]
    simp only [packetSizeMultiple]
    omega
  · rw [wp_readRand hp]
    simp only [wp_bind, wp_xorPrefix, wp_xorKeyStream, wp_write, wp_writeMac, wire, tag, sealedBody,
      header, Stream.xorKeyStream_append, append_assoc]

theorem macSize_le (hm : ∀ m, s.mac = some m → m.size ≤ 32) : s.macSize ≤ 32 := by
  rw [macSize]
  cases hs : s.mac with
  | none => exact Nat.zero_le _
  | some m => exact (Nat.mod_le _ _).trans (hm m hs)

theorem length_tag (seqNum : Nat) (packet padding : Bytes)
    (hm : ∀ m, s.mac = some m → m.size ≤ 32) :
    (s.tag seqNum packet padding).length = s.macSize := by
  rw [tag, macSize]
  cases hs : s.mac with
  | none => rfl
  | some m =>
    have h32 := hm m hs
    rw [map_some, map_some, getD_some, getD_some, m.length_sum,
      u32_of_lt (by omega)]

theorem take_append_drop_prefixXor (he : s.encryptThenMac = true) (h : pre.length = 5) :
    pre.take 4 ++ (s.prefixXor pre).1.drop 4 = (s.prefixXor pre).1 := by
  have h4 : (pre.take 4).length = 4 := by rw [length_take, h]; rfl
  simp only [prefixXor, he, if_true]
  rw [drop_left' h4]

theorem length_sealedBody (s : StreamPacketCipher) (packet padding : Bytes) :
    (s.sealedBody packet padding).1.length = packet.length + padding.length := by
  rw [sealedBody, length_xorKeyStream, length_append]

theorem take_header (s : StreamPacketCipher) (h : n + 1 + s.paddingLength n < 2 ^ 32) :
    bigEndianUint32 ((s.header n).take 4) = n + 1 + s.paddingLength n := by
  rw [header, take_left' (length_putUint32 _), u32_of_lt h, bigEndianUint32_putUint32 h]

theorem getD_header (s : StreamPacketCipher) (n : Nat) :
    ((s.header n).getD 4 0).toNat = s.paddingLength n := by
  have hb := s.paddingLength_bounds n
  change (UInt8.ofNat (s.paddingLength n)).toNat = _
  rw [UInt8.toNat_ofNat', Nat.mod_eq_of_lt (by omega)]

theorem bodyOk_wire (hm : ∀ m, s.mac = some m → m.size ≤ 32) (h1 : 1 ≤ packet.length)
    (hl : packet.length + 1 + s.paddingLength packet.length ≤ maxPacket)
    (hp : padding.length = s.paddingLength packet.length) (b : Slice) :
    BodyOk { s with cipher := (s.prefixXor (s.header packet.length)).2, packetData := b }
      (putUint32 seqNum ++ if s.etm then (s.header packet.length).take 4 ++
        (s.prefixXor (s.header packet.length)).1.drop 4 else s.header packet.length)
      (packet.length + 1 + s.paddingLength packet.length) (s.paddingLength packet.length)
      ((s.sealedBody packet padding).1 ++ (s.tag seqNum packet padding ++ rest)) where
  payload := by omega
  le_max := hl
  enough := by
    have ht := length_tag seqNum packet padding hm
    have hb := s.length_sealedBody packet padding
    change _ + s.macSize ≤ _
    rw [length_append, length_append]
    omega
  tag m hmac := by
    have hb : (s.sealedBody packet padding).1.length =
        packet.length + 1 + s.paddingLength packet.length - 1 := by
      rw [s.length_sealedBody packet padding]
      omega
    change s.mac = some m at hmac
    change _ = take s.macSize _
    rw [take_left' hb, drop_left' hb, take_left' (length_tag seqNum packet padding hm)]
    have hx : ((s.prefixXor (s.header packet.length)).2.xorKeyStream
        (s.sealedBody packet padding).1).1 = packet ++ padding := by
      rw [sealedBody, Stream.xorKeyStream_xorKeyStream]
    rw [hx, tag, hmac, map_some, getD_some, append_assoc]
    by_cases he : s.etm = true
    · have het : s.encryptThenMac = true := by rw [encryptThenMac, hmac, he]; rfl
      simp only [he, if_true]
      rw [take_append_drop_prefixXor het rfl]
    · simp only [he, Bool.false_eq_true, if_false]

theorem readPacket_wire (seqNum : Nat) (rest : Bytes) (e : Err)
    (hm : ∀ m, s.mac = some m → m.size ≤ 32) (h1 : 1 ≤ packet.length)
    (hl : packet.length + 1 + s.paddingLength packet.length ≤ maxPacket)
    (hp : padding.length = s.paddingLength packet.length) (b : Slice) :
    (readPacket seqNum).wp (fun p t => p = packet ∧ ∃ b', t =
        ({ s with cipher := (s.sealedBody packet padding).2, packetData := b' }, ⟨rest, e⟩))
      (fun _ => False)
      ({ s with packetData := b }, ⟨s.wire seqNum packet padding ++ rest, e⟩) := by
  have hb := s.paddingLength_bounds packet.length
  have h5 : (s.prefixXor (s.header packet.length)).1.length = prefixLen := length_prefixXor _ _
  have hpx : StreamPacketCipher.prefixXor { s with packetData := b }
      (s.prefixXor (s.header packet.length)).1 = (s.header packet.length, _) :=
    prefixXor_prefixXor (s := s) rfl
  simp only [readPacket, wp_bind, wp_readFull, wire, append_assoc]
  refine ⟨fun _ => ?_, fun h => ?_⟩
  · rw [take_left' h5, drop_left' h5, wp_xorPrefix, hpx]
    simp only [wp_bind, wp_self]
    have hlt : packet.length + 1 + s.paddingLength packet.length < 2 ^ 32 :=
      lt_of_le_of_lt hl (by decide)
    rw [take_header s hlt, getD_header]
    refine wp_readBody_of (macSize_le hm) hlt (by omega) ?_ ?_
    · exact fun hn => absurd (bodyOk_wire hm h1 hl hp b) hn
    intro b' hok
    have hbl : (s.sealedBody packet padding).1.length =
        packet.length + 1 + s.paddingLength packet.length - 1 := by
      rw [s.length_sealedBody packet padding]
      omega
    have hx : (s.prefixXor (s.header packet.length)).2.xorKeyStream
        (s.sealedBody packet padding).1 = (packet ++ padding, (s.sealedBody packet padding).2) :=
      Stream.xorKeyStream_xorKeyStream _ _
    have hn : packet.length + 1 + s.paddingLength packet.length -
        s.paddingLength packet.length - 1 = packet.length := by omega
    have hrest : ((s.sealedBody packet padding).1 ++ (s.tag seqNum packet padding ++ rest)).drop
        (packet.length + 1 + s.paddingLength packet.length - 1 + s.macSize) = rest := by
      rw [← hbl, ← length_tag seqNum packet padding hm, ← append_assoc,
        ← length_append, drop_left]
    simp only [take_left' hbl, hx, hn, take_left]
    exact ⟨trivial, b', congrArg (fun l => (_, Reader.mk l e)) hrest⟩
  · rw [length_append, h5] at h
    omega

end StreamPacketCipher

namespace GcmCipher

variable {c : GcmCipher}

theorem paddingLength_bounds (n : Nat) :
    4 ≤ (paddingLength n).toNat ∧ (paddingLength n).toNat ≤ 19 := by
  have hp : (UInt8.ofNat (packetSizeMultiple - (1 + n) % packetSizeMultiple)).toNat =
      16 - (1 + n) % 16 := by
    rw [UInt8.toNat_ofNat']
    simp only [packetSizeMultiple]
    omega
  simp only [paddingLength]
  generalize UInt8.ofNat (packetSizeMultiple - (1 + n) % packetSizeMultiple) = p at hp
  by_cases h : p < 4
  · have h4 : p.toNat < 4 := UInt8.lt_iff_toNat_lt.mp h
    rw [if_pos h, UInt8.toNat_add]
    change 4 ≤ (p.toNat + 16) % 2 ^ 8 ∧ (p.toNat + 16) % 2 ^ 8 ≤ 19
    omega
  · have h4 : ¬ p.toNat < 4 := fun hlt => h (UInt8.lt_iff_toNat_lt.mpr hlt)
    rw [if_neg h]
    omega

def plaintext (packet padding : Bytes) : Bytes :=
  paddingLength packet.length :: (packet ++ padding)

def lengthField (n : Nat) : Bytes := putUint32 (u32 (n + (paddingLength n).toNat + 1))

theorem length_lengthField (n : Nat) : (lengthField n).length = 4 := rfl

def wire (c : GcmCipher) (packet padding : Bytes) : Bytes :=
  lengthField packet.length ++
    c.aead.sealBytes c.iv (plaintext packet padding) (lengthField packet.length)

theorem writePacket_wire (seqNum : Nat) (out more : Bytes) (e : Err)
    (hi : c.iv.length = 12) (hn : c.aead.nonceSize = 12)
    (hl : packet.length + 1 + (paddingLength packet.length).toNat < 2 ^ 32)
    (hp : padding.length = (paddingLength packet.length).toNat) :
    (writePacket seqNum packet).wp (fun _ t => ∃ b, t = ({ c with iv := nextIV c.iv, buf := b },
        ⟨⟨out ++ c.wire packet padding, none⟩, ⟨more, e⟩⟩))
      (fun _ => False) (c, ⟨⟨out, none⟩, ⟨padding ++ more, e⟩⟩) := by
  have hlen : u32 (packet.length + (paddingLength packet.length).toNat + 1) =
      packet.length + (paddingLength packet.length).toNat + 1 := u32_of_lt (by omega)
  simp only [writePacket, wp_bind, wp_write]
  rw [hlen]
  apply wp_resize_of
  intro b hb _
  have hcap : b.len ≤ b.cap := b.len_le
  obtain ⟨p, hp₁, -, hpl⟩ := downFrom_of_le (s := b) (k := 1) (by omega)
  obtain ⟨q, hq₁, -, hql⟩ := downFrom_of_le (s := b) (k := 1 + packet.length) (by omega)
  have hrest : padding.length = q.len := by omega
  have htake : packet.take p.len = packet := take_of_length_le (by omega)
  obtain ⟨x, hx⟩ := index_of_lt (s := b) (i := 0) (by omega)
  simp only [wp_bind, wp_self, wp_inRange, wp_update]
  refine ⟨x, hx, p, hp₁, q, hq₁, ?_⟩
  rw [wp_readRand hrest, htake]
  have hone : (paddingLength packet.length :: packet).length = 1 + packet.length := Nat.add_comm _ _
  have hfill : ((b.store 0 (paddingLength packet.length :: packet)).store (1 + packet.length)
      padding).data = plaintext packet padding := by
    rw [data, len_store, len_store, take_store
      (le_cap_store (by omega)) (by omega), take_store_zero hone]
    rfl
  simp only [wp_bind, wp_self, wp_inRange, wp_update, wp_write, sealBuf, hi, hn, if_true, hfill]
  refine ⟨_, rfl, _, upTo_of_le (Nat.zero_le _), ?_⟩
  rw [wp_incIV (by exact hi), data_append]
  have hout : out ++ putUint32 (packet.length + (paddingLength packet.length).toNat + 1) ++
      ([] ++ c.aead.sealBytes c.iv (plaintext packet padding)
        (putUint32 (packet.length + (paddingLength packet.length).toNat + 1))) =
      out ++ c.wire packet padding := by
    rw [nil_append, append_assoc, wire, lengthField, hlen]
  exact ⟨_, Prod.ext rfl (congrArg (fun o => Sink.mk ⟨o, none⟩ ⟨more, e⟩) hout)⟩

theorem length_plaintext (hp : padding.length = (paddingLength packet.length).toNat) :
    (plaintext packet padding).length = packet.length + (paddingLength packet.length).toNat +
      1 := by
  rw [plaintext, length_cons, length_append, hp]

theorem length_sealed (c : GcmCipher) (ht : c.aead.tagSize = 16) (packet padding : Bytes) :
    (c.aead.sealBytes c.iv (plaintext packet padding) (lengthField packet.length)).length =
      (plaintext packet padding).length + gcmTagSize := by
  rw [c.aead.length_sealBytes, ht]
  rfl

theorem opened_wire (ht : c.aead.tagSize = 16)
    (hl : packet.length + 1 + (paddingLength packet.length).toNat ≤ maxPacket)
    (hp : padding.length = (paddingLength packet.length).toNat) (b : Slice) :
    opened { c with buf := b } ⟨c.wire packet padding ++ rest, e⟩ =
      some (plaintext packet padding) := by
  have hlt : packet.length + (paddingLength packet.length).toNat + 1 < 2 ^ 32 := by
    simp only [maxPacket] at hl
    omega
  have h4 := length_lengthField packet.length
  have hf : bigEndianUint32 (lengthField packet.length) =
      packet.length + (paddingLength packet.length).toNat + 1 := by
    rw [lengthField, u32_of_lt hlt, bigEndianUint32_putUint32 hlt]
  have hs := c.length_sealed ht packet padding
  rw [length_plaintext hp] at hs
  simp only [opened, wire, append_assoc, take_left' h4, drop_left' h4, hf]
  rw [if_pos, take_left' hs, c.aead.openBytes_sealBytes]
  refine ⟨?_, by omega, ?_⟩
  · rw [length_append, h4]
    omega
  · rw [length_append, hs]
    omega

theorem wp_unpad_plaintext {Q : Bytes → σ → Prop} {E : σ → Prop} {t : σ} {plain : Slice}
    (hd : plain.data = plaintext packet padding) (h1 : 1 ≤ packet.length)
    (hl : packet.length + 1 + (paddingLength packet.length).toNat ≤ maxPacket)
    (hp : padding.length = (paddingLength packet.length).toNat) :
    (unpad (plaintext packet padding).length plain).wp Q E t ↔ Q packet t := by
  have hb := paddingLength_bounds packet.length
  have hlp := length_plaintext hp
  have hlen : plain.len = (plaintext packet padding).length := by rw [← hd, plain.length_data]
  have hcap : plain.len ≤ plain.cap := plain.len_le
  have h4 : ¬ paddingLength packet.length < 4 := fun h => by
    have := UInt8.lt_iff_toNat_lt.mp h
    change _ < 4 at this
    omega
  have hs : (paddingLength packet.length + 1).toNat = (paddingLength packet.length).toNat + 1 := by
    rw [UInt8.toNat_add]
    change (_ + 1) % 2 ^ 8 = _
    omega
  have hj : subU32 (plaintext packet padding).length (paddingLength packet.length).toNat =
      1 + packet.length := by
    simp only [maxPacket] at hl
    rw [subU32_of_le (by omega) (by omega)]
    omega
  obtain ⟨out, ho, hod⟩ := between_of_le (s := plain) (i := 1) (j := 1 + packet.length)
    (by omega) (by omega)
  have hout : out.data = packet := by
    have h := congrArg (take (1 + packet.length)) hd
    rw [data, take_take, Nat.min_eq_left (by omega)] at h
    have hone : (paddingLength packet.length :: packet).length = 1 + packet.length :=
      Nat.add_comm _ _
    rw [hod, h, plaintext, ← cons_append, take_left' hone]
    rfl
  have hi : plain.index 0 = some (paddingLength packet.length) := by
    rw [index, hd]
    rfl
  simp only [unpad, wp_bind, wp_inRange, wp_failIf, wp_pure, hi, Option.some.injEq,
    exists_eq_left', h4, hs, hj, ho, hout, false_implies, not_false_eq_true, true_implies, true_and]
  constructor
  · exact fun h => h.2 (by omega)
  · exact fun h => ⟨fun hle => absurd hle (by omega), fun _ => h⟩

theorem readPacket_wire (seqNum : Nat) (rest : Bytes) (e : Err)
    (hc : Sized { c with buf := b }) (h1 : 1 ≤ packet.length)
    (hl : packet.length + 1 + (paddingLength packet.length).toNat ≤ maxPacket)
    (hp : padding.length = (paddingLength packet.length).toNat) :
    (readPacket seqNum).wp (fun p t => p = packet ∧ t.1.Sized ∧ ∃ b', t =
        ({ c with iv := nextIV c.iv, buf := b' }, ⟨rest, e⟩))
      (fun _ => False) ({ c with buf := b }, ⟨c.wire packet padding ++ rest, e⟩) := by
  have ho : opened _ ⟨c.wire packet padding ++ rest, e⟩ = _ := opened_wire hc.tagSize hl hp b
  simp only [readPacket, wp_bind]
  apply wp_readPlain_of hc
  · intro hn
    cases hn.symm.trans ho
  intro p plain b' hp' hd hpl hcap hb'
  cases ho.symm.trans hp'
  have hlp := length_plaintext hp
  have hrest : ((c.wire packet padding ++ rest).drop 4).drop
      ((plaintext packet padding).length + gcmTagSize) = rest := by
    rw [wire, append_assoc, drop_left' (length_lengthField _),
      drop_left' (c.length_sealed hc.tagSize packet padding)]
  have hs : Sized ⟨c.aead, nextIV c.iv, b'⟩ :=
    ⟨length_nextIV hc.iv, hc.nonceSize, hc.tagSize, hb'⟩
  rw [wp_unpad_plaintext hd h1 hl hp]
  exact ⟨rfl, hs, b', congrArg (fun l => (_, Reader.mk l e)) hrest⟩

end GcmCipher

namespace CbcCipher

variable {c : CbcCipher}

theorem effectiveBlockSize_eq (hb : n = 8 ∨ n = 16) :
    maxUInt32 cbcMinPacketSizeMultiple n = n := by
  rcases hb with rfl | rfl <;> rfl

section

variable (hb : c.encrypter.block.size = 8 ∨ c.encrypter.block.size = 16)

include hb

theorem encLength_mod (n : Nat) : c.encLength n % c.encrypter.block.size = 0 := by
  have hdvd : c.encrypter.block.size ∣ 2 ^ 32 := by rcases hb with h | h <;> rw [h] <;> decide
  simp only [encLength, effectiveBlockSize_eq hb, u32]
  rw [Nat.mod_mod_of_dvd _ hdvd, Nat.mul_mod_left]

theorem encLength_eq (hn : n ≤ maxPacket) : c.encLength n =
      (n + 8 + c.encrypter.block.size) / c.encrypter.block.size * c.encrypter.block.size := by
  simp only [maxPacket] at hn
  have h4 : maxUInt32 (prefixLen + n + cbcMinPaddingSize) cbcMinPaddingSize = n + 9 := by
    have hlt : cbcMinPaddingSize < prefixLen + n + cbcMinPaddingSize := by
      simp only [prefixLen, cbcMinPaddingSize]
      omega
    have heq : prefixLen + n + cbcMinPaddingSize = n + 9 := by
      simp only [prefixLen, cbcMinPaddingSize]
      omega
    rw [maxUInt32, if_pos hlt, heq, u32_of_lt (by omega)]
  have hu : u32 (n + 9 + c.encrypter.block.size) = n + 9 + c.encrypter.block.size :=
    u32_of_lt (by omega)
  have hs : subU32 (n + 9 + c.encrypter.block.size) 1 = n + 8 + c.encrypter.block.size := by
    rw [subU32_of_le (by omega) (by omega)]
    omega
  simp only [encLength, effectiveBlockSize_eq hb, h4]
  rw [hu, hs, u32_of_lt]
  have := Nat.div_mul_le_self (n + 8 + c.encrypter.block.size) c.encrypter.block.size
  omega

theorem encLength_bounds (hn : n ≤ maxPacket) : n + 9 ≤ c.encLength n ∧ c.encLength n ≤ n + 24 ∧
      c.encLength n % c.encrypter.block.size = 0 := by
  have hmod := encLength_mod hb n
  rw [encLength_eq hb hn] at hmod ⊢
  rcases hb with h | h <;> rw [h] at hmod ⊢ <;> omega

end

def paddingLength (c : CbcCipher) (n : Nat) : Nat := c.encLength n - 5 - n

def plaintext (c : CbcCipher) (packet padding : Bytes) : Bytes :=
  putUint32 (c.encLength packet.length - 4) ++
    ([UInt8.ofNat (c.paddingLength packet.length)] ++ (packet ++ padding))

def tag (c : CbcCipher) (seqNum : Nat) (packet padding : Bytes) : Bytes :=
  (c.mac.map fun m => m.sum (putUint32 seqNum ++ c.plaintext packet padding)).getD []

theorem wp_resizeCap_of {Q : Unit → CbcCipher × ρ → Prop} {E} {k : ρ} (hn : n ≤ size)
    (h : ∀ b : Slice, b.len = n → size ≤ b.cap → Q () ({ c with packetData := b }, k)) :
    (resizeCap n size).wp Q E (c, k) := by
  simp only [resizeCap, wp_bind, wp_self, wp_inRange, wp_update]
  by_cases hcap : u32 c.packetData.cap < size
  · rw [if_pos hcap]
    refine ⟨_, dif_pos hn, h _ rfl ?_⟩
    simp [cap]
  · have hle : size ≤ c.packetData.cap := le_trans (Nat.not_lt.mp hcap) (Nat.mod_le _ _)
    rw [if_neg hcap]
    exact ⟨_, upTo_of_le (hn.trans hle), h _ rfl hle⟩

theorem appendMac_eq (seqNum : Nat) (c : CbcCipher) :
    ∃ b : Slice, appendMac seqNum c = { c with packetData := b } ∧ b.data = c.packetData.data ++
      (c.mac.map fun m => m.sum (putUint32 seqNum ++ c.packetData.data)).getD [] := by
  cases c with
  | mk mac macSize dec enc data n =>
    cases mac with
    | none => exact ⟨data, rfl, (append_nil _).symm⟩
    | some m => exact ⟨_, rfl, data_append _ _⟩

theorem length_plaintext (hlo : packet.length + 5 ≤ c.encLength packet.length)
    (hp : padding.length = c.paddingLength packet.length) :
    (c.plaintext packet padding).length = c.encLength packet.length := by
  simp only [plaintext, length_append, length_putUint32, length_cons, length_nil, hp,
    paddingLength]
  omega

theorem data_fill {b : Slice} (hbl : b.len = c.encLength packet.length)
    (hlo : packet.length + 5 ≤ c.encLength packet.length)
    (hp : padding.length = c.paddingLength packet.length) :
    ((b.store 0 (putUint32 (c.encLength packet.length - 4) ++
      [UInt8.ofNat (c.paddingLength packet.length)] ++ packet)).store (prefixLen + packet.length)
      padding).data = c.plaintext packet padding := by
  have hhead : (putUint32 (c.encLength packet.length - 4) ++
      [UInt8.ofNat (c.paddingLength packet.length)] ++ packet).length =
      prefixLen + packet.length := by
    rw [length_append, length_append]
    rfl
  have hcb : prefixLen + packet.length ≤ b.cap := by
    refine le_trans ?_ b.len_le
    simp only [prefixLen]
    omega
  rw [data, len_store, len_store, take_store (le_cap_store hcb),
    take_store_zero hhead]
  · simp only [plaintext, append_assoc]
  · simp only [prefixLen, paddingLength] at hp ⊢
    omega

theorem writePacket_wire (seqNum : Nat) (out more : Bytes) (e : Err)
    (hb : c.encrypter.block.size = 8 ∨ c.encrypter.block.size = 16)
    (hm : c.macSize ≤ 32) (hl : packet.length ≤ maxPacket)
    (hp : padding.length = c.paddingLength packet.length)
    (he : c.encrypter.encrypt (c.plaintext packet padding) = some (x, m)) :
    (writePacket seqNum packet).wp (fun _ t => ∃ b, t = ({ c with packetData := b, encrypter := m },
        ⟨⟨out ++ (x ++ c.tag seqNum packet padding), none⟩, ⟨more, e⟩⟩))
      (fun _ => False) (c, ⟨⟨out, none⟩, ⟨padding ++ more, e⟩⟩) := by
  obtain ⟨hlo, hhi, -⟩ := encLength_bounds hb hl
  simp only [maxPacket] at hl
  simp only [writePacket, wp_bind, wp_self]
  rw [u32_of_lt (by omega), subU32_of_le (by omega) (by omega)]
  apply wp_resizeCap_of (Nat.le_add_right _ _)
  intro b hbl hcap
  obtain ⟨p₁, h₁, -, hl₁⟩ := downFrom_of_le (s := b) (k := 4) (by omega)
  obtain ⟨y, hy⟩ := index_of_lt (s := p₁) (i := 0) (by omega)
  obtain ⟨p₂, h₂, -, hl₂⟩ := downFrom_of_le (s := p₁) (k := 1) (by omega)
  obtain ⟨p₃, h₃, -, hl₃⟩ := downFrom_of_le (s := p₂) (k := packet.length) (by omega)
  have hpl : padding.length = p₃.len := by
    rw [hp, paddingLength]
    omega
  simp only [wp_bind, wp_self, wp_inRange, wp_update]
  refine ⟨p₁, h₁, y, hy, p₂, h₂, p₃, h₃, ?_⟩
  rw [wp_readRand hpl]
  have hbyte : (((c.encLength packet.length - 4 : Nat) : Int) - (1 + (packet.length : Int))) % 256 =
      ((c.paddingLength packet.length : Nat) : Int) := by
    simp only [paddingLength]
    omega
  have hfill := data_fill hbl (by omega) hp
  simp only [wp_bind, wp_self, wp_inRange, wp_update, encryptUpTo, hbyte, Int.toNat_natCast]
  obtain ⟨b', hb', hd'⟩ := appendMac_eq seqNum { c with
    packetData := (b.store 0 (putUint32 (c.encLength packet.length - 4) ++
      [UInt8.ofNat (c.paddingLength packet.length)] ++ packet)).store (prefixLen + packet.length)
      padding }
  rw [hb']
  simp only [hfill] at hd'
  obtain ⟨src, hs, hsd⟩ := upTo_of_data hd' (length_plaintext (by omega) hp)
  have hx := CbcMode.length_of_encrypt he
  refine ⟨src, hs, (x, m), by rw [hsd]; exact he, ?_⟩
  rw [wp_write, data_store_append hd' hx]
  exact ⟨_, rfl⟩

theorem wp_readPacket_of_leaky {Q : Bytes → CbcCipher × Reader Err → Prop} {r : Reader Err}
    (h : (readPacketLeaky seqNum).wp Q (fun _ => False) (c, r)) :
    (readPacket seqNum).wp Q (fun _ => False) (c, r) := by
  obtain ⟨p, t, hx, hq⟩ := wp_returns_iff.mp h
  simp only [wp, readPacket, hx]
  exact hq

theorem lengthsOk_plaintext (hb : c.encrypter.block.size = 8 ∨ c.encrypter.block.size = 16)
    (h1 : 1 ≤ n) (hl : n + 1 + c.paddingLength n ≤ maxPacket) :
    LengthsOk c.encrypter.block.size (c.encLength n - 4) (c.paddingLength n) := by
  have hn : n ≤ maxPacket := by omega
  obtain ⟨hlo, hhi, hmod⟩ := encLength_bounds hb hn
  have h16 : 16 ≤ c.encLength n := by
    rcases hb with h | h <;> rw [h] at hmod <;> omega
  simp only [paddingLength] at hl ⊢
  refine ⟨by omega, by omega, ?_, by omega, by omega⟩
  rwa [Nat.sub_add_cancel (by omega)]

theorem take_plaintext (c : CbcCipher) (packet padding : Bytes) (h : 5 ≤ n) :
    ∃ z, (c.plaintext packet padding).take n = putUint32 (c.encLength packet.length - 4) ++
      ([UInt8.ofNat (c.paddingLength packet.length)] ++ z) := by
  refine ⟨(packet ++ padding).take (n - 4 - 1), ?_⟩
  rw [plaintext, take_append, take_append, take_of_length_le, take_of_length_le]
  · rfl
  · rw [length_putUint32, length_singleton]
    omega
  · rw [length_putUint32]
    omega

theorem toNat_paddingLength (hlo : n + 9 ≤ c.encLength n) (hhi : c.encLength n ≤ n + 24) :
    (UInt8.ofNat (c.paddingLength n)).toNat = c.paddingLength n := by
  rw [UInt8.toNat_ofNat', Nat.mod_eq_of_lt]
  simp only [paddingLength]
  omega

theorem length_tag (seqNum : Nat) (packet padding : Bytes) :
    (c.tag seqNum packet padding).length = (c.mac.map fun m => m.size).getD 0 := by
  rw [tag]
  cases c.mac with
  | none => rfl
  | some m => exact m.length_sum _

theorem drop_take_plaintext (hlo : packet.length + 9 ≤ c.encLength packet.length) :
    ((c.plaintext packet padding).take (4 + (c.encLength packet.length - 4) -
      c.paddingLength packet.length)).drop prefixLen = packet := by
  have hn : 4 + (c.encLength packet.length - 4) - c.paddingLength packet.length =
      prefixLen + packet.length := by
    simp only [paddingLength, prefixLen]
    omega
  have hhead : (putUint32 (c.encLength packet.length - 4) ++
      [UInt8.ofNat (c.paddingLength packet.length)]).length = prefixLen := rfl
  rw [hn, plaintext, ← append_assoc (putUint32 _), ← append_assoc _ packet,
    take_left' (by rw [length_append, hhead]), drop_left' hhead]

theorem encrypt_plaintext (hle : c.encrypter.block.size ≤ c.encLength packet.length)
    (hmod : c.encLength packet.length % c.encrypter.block.size = 0)
    (hlp : (c.plaintext packet padding).length = c.encLength packet.length)
    (he : c.encrypter.encrypt (c.plaintext packet padding) = some (x, m)) :
    ∃ x₁ x₂ m₁, x = x₁ ++ x₂ ∧ x₁.length = c.encrypter.block.size ∧
      x₂.length = c.encLength packet.length - c.encrypter.block.size ∧
      c.encrypter.decrypt x₁ =
        some ((c.plaintext packet padding).take c.encrypter.block.size, m₁) ∧
      m₁.decrypt x₂ = some ((c.plaintext packet padding).drop c.encrypter.block.size, m) := by
  have hl₁ : ((c.plaintext packet padding).take c.encrypter.block.size).length =
      c.encrypter.block.size := length_take_of_le (hlp ▸ hle)
  have hl₂ : ((c.plaintext packet padding).drop c.encrypter.block.size).length =
      c.encLength packet.length - c.encrypter.block.size := by rw [length_drop, hlp]
  have hm₁ : ((c.plaintext packet padding).take c.encrypter.block.size).length %
      c.encrypter.block.size = 0 := by rw [hl₁, Nat.mod_self]
  have hm₂ : ((c.plaintext packet padding).drop c.encrypter.block.size).length %
      c.encrypter.block.size = 0 := by
    rw [hl₂, ← Nat.mod_eq_sub_mod hle, hmod]
  obtain ⟨x₁, x₂, m₁, m₂, hx, hlx₁, hlx₂, hd₁, hd₂, -⟩ := CbcMode.encrypt_append hm₁ hm₂
  rw [take_append_drop, he] at hx
  cases hx
  exact ⟨x₁, x₂, m₁, rfl, hlx₁.trans hl₁, hlx₂.trans hl₂, hd₁, hd₂⟩

theorem readPacket_wire {r : CbcCipher} (seqNum : Nat) (rest : Bytes) (e : Err) (hr : r.Sized)
    (hdec : r.decrypter = c.encrypter)
    (hmac : r.mac = c.mac) (hms : r.macSize = (c.mac.map fun m => m.size).getD 0)
    (h1 : 1 ≤ packet.length)
    (hl : packet.length + 1 + c.paddingLength packet.length ≤ maxPacket)
    (hp : padding.length = c.paddingLength packet.length)
    (he : c.encrypter.encrypt (c.plaintext packet padding) = some (x, m)) :
    (readPacket seqNum).wp (fun p t => p = packet ∧ t.1.Sized ∧ ∃ b n, t =
        ({ r with packetData := b, decrypter := m, oracleCamouflage := n }, ⟨rest, e⟩))
      (fun _ => False) (r, ⟨x ++ c.tag seqNum packet padding ++ rest, e⟩) := by
  have hb : c.encrypter.block.size = 8 ∨ c.encrypter.block.size = 16 := hdec ▸ hr.block
  obtain ⟨hlo, hhi, hmod⟩ := encLength_bounds (n := packet.length) hb (by omega)
  have hok := lengthsOk_plaintext hb h1 hl
  have hlp := length_plaintext (by omega) hp
  have hmin := hok.min_le
  have hbe : c.encrypter.block.size ≤ c.encLength packet.length := by omega
  obtain ⟨x₁, x₂, m₁, rfl, hlx₁, hlx₂, hd₁, hd₂⟩ := encrypt_plaintext hbe hmod hlp he
  have hlt := (length_tag (c := c) seqNum packet padding).trans hms.symm
  rw [← hdec] at hlx₁ hd₁
  apply wp_readPacket_of_leaky
  simp only [readPacketLeaky, wp_bind, wp_self, append_assoc]
  apply wp_readFirstBlock_of hr
  · intro hshort
    rw [length_append] at hshort
    omega
  intro p m' b first n _ hd hfd hfl hfa hcap _
  rw [take_left' hlx₁, hd₁] at hd
  cases hd
  rw [drop_left' hlx₁]
  have hs : ({ r with packetData := b, decrypter := m₁, oracleCamouflage := n } :
    CbcCipher).Sized :=
    ⟨CbcMode.block_decrypt hd₁ ▸ hr.block, hr.macSize, hcap⟩
  obtain ⟨z, hz⟩ := c.take_plaintext packet padding (n := c.encrypter.block.size) (by omega)
  have hjoin : first.data ++ (c.plaintext packet padding).drop c.encrypter.block.size =
      c.plaintext packet padding := by rw [hfd, hdec, take_append_drop]
  rw [← hdec] at hz
  have hfp := hfd.trans hz
  obtain ⟨lb, hlb, hlbd⟩ := upTo_of_data hfp (length_putUint32 _)
  have hidx : first.index 4 = some (UInt8.ofNat (c.paddingLength packet.length)) := by
    rw [index, hfp]
    rfl
  have hpad : c.paddingLength packet.length < 256 := by
    simp only [paddingLength]
    omega
  simp only [wp_bind, wp_inRange]
  refine ⟨lb, hlb, _, hidx, ?_⟩
  have hlen : c.encLength packet.length - 4 < 2 ^ 32 := by
    simp only [maxPacket] at hl
    omega
  rw [hlbd, bigEndianUint32_putUint32 hlen, toNat_paddingLength hlo hhi]
  rw [← hdec] at hok hlx₂ hbe
  have hx₂ : x₂.length = 4 + (c.encLength packet.length - 4) - first.len := by omega
  apply wp_checkLengths_of hr.block hpad _ fun hn => absurd hok hn
  intro _
  refine wp_readRest_of hs (CbcMode.block_decrypt hd₁ ▸ hfl.symm) (hfl ▸ hok) hfa ?_ ?_ ?_
  · intro hshort
    rw [length_append, length_append] at hshort
    simp only [] at hshort
    omega
  · intro hbad
    rw [take_left' hx₂, drop_left' hx₂, take_left' hlt] at hbad
    obtain ⟨a, ha, hne⟩ := hbad _ _ hd₂
    rw [hjoin] at hne
    refine absurd ?_ hne
    rw [tag, ← hmac, ha, map_some, getD_some]
  · intro p m' b' n' _ hd _ hcap' _
    rw [take_left' hx₂, hd₂] at hd
    cases hd
    have hrest : (x₂ ++ (c.tag seqNum packet padding ++ rest)).drop
        (4 + (c.encLength packet.length - 4) + r.macSize - first.len) = rest := by
      rw [← append_assoc]
      apply drop_left'
      rw [length_append]
      omega
    have hblock : m.block = r.decrypter.block :=
      (CbcMode.block_decrypt hd₂).trans (CbcMode.block_decrypt hd₁)
    refine ⟨?_, ⟨hblock ▸ hr.block, hr.macSize, hcap'⟩, b', n', ?_⟩
    · rw [hjoin]
      exact drop_take_plaintext hlo
    · exact congrArg (fun l => (_, Reader.mk l e)) hrest

end CbcCipher

namespace PacketCipher

def paddingLength : PacketCipher → Nat → Nat
  | .stream s, n => s.paddingLength n
  | .gcm _, n => (GcmCipher.paddingLength n).toNat
  | .cbc c, n => c.paddingLength n

def framedLength (c : PacketCipher) (n : Nat) : Nat := n + 1 + c.paddingLength n

/-- Writer and reader agree on all that the bytes of the next packet depend on. -/
def InStep : PacketCipher → PacketCipher → Prop
  | .stream w, .stream r => r.mac = w.mac ∧ r.cipher = w.cipher ∧ r.etm = w.etm
  | .gcm w, .gcm r => r.aead = w.aead ∧ r.iv = w.iv
  | .cbc w, .cbc r => r.mac = w.mac ∧ r.macSize = w.macSize ∧ r.decrypter = w.encrypter
  | _, _ => False

/-- What holds of every reader that `newPacketCipher` built. -/
def Ready : PacketCipher → Prop
  | .stream s => ∀ m, s.mac = some m → m.size ≤ 32
  | .gcm c => c.Sized
  | .cbc c => c.Sized ∧ c.macSize = (c.mac.map fun m => m.size).getD 0

theorem ready_of_built (h : Built P c) : Ready c ∧ InStep c c := by
  cases h with
  | stream m s etm hm => exact ⟨fun m' h => by cases h; exact hm, rfl, rfl, rfl⟩
  | gcm a iv hn ht hi => exact ⟨⟨hi, hn, ht, Nat.zero_le _⟩, rfl, rfl⟩
  | cbc m mode hm hb =>
    exact ⟨⟨⟨hb, hm, by rw [cap_make]; decide⟩, rfl⟩, rfl, rfl, rfl⟩

theorem inStep_stream {s : StreamPacketCipher} (h : InStep (.stream s) r) :
    ∃ b, r = .stream { s with packetData := b } := by
  cases r with
  | stream r =>
    obtain ⟨h₁, h₂, h₃⟩ := h
    refine ⟨r.packetData, ?_⟩
    rw [← h₁, ← h₂, ← h₃]
  | gcm r | cbc r => exact h.elim

theorem inStep_gcm {c : GcmCipher} (h : InStep (.gcm c) r) : ∃ b, r = .gcm { c with buf := b } := by
  cases r with
  | stream r | cbc r => exact h.elim
  | gcm r =>
    obtain ⟨h₁, h₂⟩ := h
    refine ⟨r.buf, ?_⟩
    rw [← h₁, ← h₂]

theorem inStep_cbc {c : CbcCipher} (h : InStep (.cbc c) r) :
    ∃ r', r = .cbc r' ∧ r'.mac = c.mac ∧ r'.macSize = c.macSize ∧ r'.decrypter = c.encrypter := by
  cases r with
  | stream r | gcm r => exact h.elim
  | cbc r => exact ⟨r, rfl, h⟩

/-- The writer's bytes for one packet give every reader in step that packet, and both stay in
step. -/
def Transfers (seqNum : Nat) (packet padding : Bytes) (w : PacketCipher) : Prop :=
  ∀ out more e, ∃ wire w', writePacket seqNum packet (w, ⟨⟨out, none⟩, ⟨padding ++ more, e⟩⟩) =
      (.ok (), w', ⟨⟨out ++ wire, none⟩, ⟨more, e⟩⟩) ∧
    (∀ n, w'.paddingLength n = w.paddingLength n) ∧
    ∀ r, InStep w r → Ready r → ∀ rest e', ∃ r',
      readPacket seqNum (r, ⟨wire ++ rest, e'⟩) = (.ok packet, r', ⟨rest, e'⟩) ∧
        InStep w' r' ∧ Ready r'

theorem transfers_stream {s : StreamPacketCipher} (hs : ∀ m, s.mac = some m → m.size ≤ 32)
    (h1 : 1 ≤ packet.length)
    (hl : packet.length + 1 + s.paddingLength packet.length ≤ maxPacket)
    (hp : padding.length = s.paddingLength packet.length) :
    Transfers seqNum packet padding (.stream s) := by
  intro out more e
  have hw := s.writePacket_wire seqNum out more e (by omega) hp
  obtain ⟨_, t, hx, rfl⟩ := wp_returns_iff.mp hw
  refine ⟨_, .stream { s with cipher := _ }, within_eq hx, fun _ => rfl, ?_⟩
  intro r hin hr rest e'
  obtain ⟨b, rfl⟩ := inStep_stream hin
  have hr := s.readPacket_wire seqNum rest e' hs h1 hl hp b
  obtain ⟨_, t, hy, rfl, b', rfl⟩ := wp_returns_iff.mp hr
  exact ⟨_, within_eq hy, ⟨rfl, rfl, rfl⟩, hs⟩

theorem transfers_gcm {c : GcmCipher} (hi : c.iv.length = 12) (hn : c.aead.nonceSize = 12)
    (h1 : 1 ≤ packet.length)
    (hl : packet.length + 1 + (GcmCipher.paddingLength packet.length).toNat ≤ maxPacket)
    (hp : padding.length = (GcmCipher.paddingLength packet.length).toNat) :
    Transfers seqNum packet padding (.gcm c) := by
  intro out more e
  have hw := c.writePacket_wire seqNum out more e hi hn (lt_of_le_of_lt hl (by decide)) hp
  obtain ⟨_, t, hx, b₁, rfl⟩ := wp_returns_iff.mp hw
  refine ⟨_, .gcm { c with iv := _, buf := b₁ }, within_eq hx, fun _ => rfl, ?_⟩
  intro r hin hr rest e'
  obtain ⟨b, rfl⟩ := inStep_gcm hin
  have hr := c.readPacket_wire seqNum rest e' hr h1 hl hp
  obtain ⟨_, t, hy, rfl, hs, b', rfl⟩ := wp_returns_iff.mp hr
  exact ⟨_, within_eq hy, ⟨rfl, rfl⟩, hs⟩

theorem transfers_cbc {c : CbcCipher}
    (hb : c.encrypter.block.size = 8 ∨ c.encrypter.block.size = 16) (hms : c.macSize ≤ 32)
    (h1 : 1 ≤ packet.length)
    (hl : packet.length + 1 + c.paddingLength packet.length ≤ maxPacket)
    (hp : padding.length = c.paddingLength packet.length) :
    Transfers seqNum packet padding (.cbc c) := by
  intro out more e
  obtain ⟨hlo, -, hmod⟩ := CbcCipher.encLength_bounds (n := packet.length) hb (by omega)
  obtain ⟨x, m, he, hblock⟩ := CbcMode.encrypt_of_mod (m := c.encrypter)
    (a := c.plaintext packet padding) (by rw [CbcCipher.length_plaintext (by omega) hp, hmod])
  have hw := c.writePacket_wire seqNum out more e hb hms (by omega) hp he
  obtain ⟨_, t, hx, b₁, rfl⟩ := wp_returns_iff.mp hw
  refine ⟨_, .cbc { c with packetData := b₁, encrypter := m }, within_eq hx, ?_, ?_⟩
  · intro n
    simp only [paddingLength, CbcCipher.paddingLength, CbcCipher.encLength, hblock]
  intro r hin hr rest e'
  obtain ⟨r, rfl, hmac, hmc, hdec⟩ := inStep_cbc hin
  have hr' := c.readPacket_wire seqNum rest e' hr.1 hdec hmac (hmac ▸ hr.2) h1 hl hp he
  obtain ⟨_, t, hy, rfl, hs, b', n, rfl⟩ := wp_returns_iff.mp hr'
  exact ⟨_, within_eq hy, ⟨hmac, hmc, rfl⟩, hs, hr.2⟩

theorem transfers_of_inStep (seqNum : Nat) (hs : InStep w r) (hr : Ready r) (h1 : 1 ≤ packet.length)
    (hl : w.framedLength packet.length ≤ maxPacket)
    (hp : padding.length = w.paddingLength packet.length) :
    Transfers seqNum packet padding w := by
  cases w with
  | stream w =>
    obtain ⟨b, rfl⟩ := inStep_stream hs
    exact transfers_stream hr h1 hl hp
  | gcm w =>
    obtain ⟨b, rfl⟩ := inStep_gcm hs
    exact transfers_gcm hr.iv hr.nonceSize h1 hl hp
  | cbc w =>
    obtain ⟨r, rfl, -, hmc, hdec⟩ := inStep_cbc hs
    exact transfers_cbc (hdec ▸ hr.1.block) (hmc ▸ hr.1.macSize) h1 hl hp

theorem writePackets_readPackets (ps : List Bytes) (hs : InStep w r₀) (hr : Ready r₀)
    (hps : ∀ p ∈ ps, 1 ≤ p.length ∧ w.framedLength p.length ≤ maxPacket)
    (hk : (ps.map fun p => w.paddingLength p.length).sum ≤ k.bytes.length) (seqNum : Nat)
    (out : Bytes) :
    ∃ wire w' k', writePackets seqNum ps (w, ⟨⟨out, none⟩, k⟩) =
        (.ok (), w', ⟨⟨out ++ wire, none⟩, k'⟩) ∧
      ∀ r, InStep w r → Ready r → ∀ rest e, ∃ r',
        readPackets seqNum ps.length (r, ⟨wire ++ rest, e⟩) = (.ok ps, r', ⟨rest, e⟩) ∧
          InStep w' r' := by
  induction ps generalizing w r₀ k seqNum out with
  | nil =>
    exact ⟨[], w, k, by rw [append_nil]; rfl, fun r hin _ rest e => ⟨r, rfl, hin⟩⟩
  | cons p ps ih =>
    rw [map_cons, sum_cons] at hk
    obtain ⟨hp, hps⟩ := forall_mem_cons.mp hps
    have hpad : (k.bytes.take (w.paddingLength p.length)).length = w.paddingLength p.length :=
      length_take_of_le (by omega)
    obtain ⟨x, w₁, hw, hsame, hread⟩ := transfers_of_inStep seqNum hs hr hp.1 hp.2 hpad
      out (k.bytes.drop (w.paddingLength p.length)) k.final
    rw [take_append_drop] at hw
    obtain ⟨r₁, -, hs₁, hr₁⟩ := hread r₀ hs hr [] .eof
    obtain ⟨y, w₂, k₂, hws, hreads⟩ := ih (k := ⟨k.bytes.drop (w.paddingLength p.length), k.final⟩)
      hs₁ hr₁ (by simpa only [framedLength, hsame] using hps)
      (by simp only [hsame, length_drop]; omega) (u32 (seqNum + 1)) (out ++ x)
    refine ⟨x ++ y, w₂, k₂, ?_, ?_⟩
    · rw [← append_assoc]
      exact bind_eq_ok.mpr ⟨(), _, hw, hws⟩
    intro r hin hready rest e
    obtain ⟨r₂, h₂, hin₂, hready₂⟩ := hread r hin hready (y ++ rest) e
    obtain ⟨r₃, h₃, hin₃⟩ := hreads r₂ hin₂ hready₂ rest e
    refine ⟨r₃, ?_, hin₃⟩
    rw [append_assoc]
    exact bind_eq_ok.mpr ⟨p, _, h₂, bind_eq_ok.mpr ⟨ps, _, h₃, rfl⟩⟩

/-- Whatever `newPacketCipher` builds, a reader returns the packets that a writer with the same keys
has written, and both stay in step. -/
theorem readPackets_writePackets (h : newPacketCipher P d algs kex () = (.ok c, ()))
    (ps : List Bytes)
    (hps : ∀ p ∈ ps, 1 ≤ p.length ∧ c.framedLength p.length ≤ maxPacket) (rand : Reader Err)
    (hr : (ps.map fun p => c.paddingLength p.length).sum ≤ rand.bytes.length) (seqNum : Nat) :
    ∃ wire w rand', writePackets seqNum ps (c, ⟨⟨[], none⟩, rand⟩) =
        (.ok (), w, ⟨⟨wire, none⟩, rand'⟩) ∧
      ∀ rest e, ∃ r, readPackets seqNum ps.length (c, ⟨wire ++ rest, e⟩) = (.ok ps, r, ⟨rest, e⟩) ∧
        InStep w r := by
  obtain ⟨hready, hstep⟩ := ready_of_built (newPacketCipher_built h)
  obtain ⟨wire, w, rand', hw, hread⟩ := writePackets_readPackets ps hstep hready hps hr seqNum []
  exact ⟨wire, w, rand', hw, hread c hstep hready⟩

def etmAlgorithms : DirectionAlgorithms :=
  ⟨"aes128-ctr", "hmac-sha2-256-etm@openssh.com", "none"⟩

def plainEtm : PacketCipher :=
  .stream ⟨some (zeroMac 32), .keyed (fun _ => 0) 0, true, make 0⟩

theorem readPackets_writePackets_plainEtm :
    ∃ wire w rand', writePackets (2 ^ 32 - 1) [[1, 2, 3], [4]]
        (plainEtm, ⟨⟨[], none⟩, ⟨replicate 40 7, .eof⟩⟩) = (.ok (), w, ⟨⟨wire, none⟩, rand'⟩) ∧
      ∀ rest e, ∃ r, readPackets (2 ^ 32 - 1) 2 (plainEtm, ⟨wire ++ rest, e⟩) =
        (.ok [[1, 2, 3], [4]], r, ⟨rest, e⟩) ∧ InStep w r := by
  have hnew : newPacketCipher plainPrimitives clientKeys etmAlgorithms zeroKex () =
      (.ok plainEtm, ()) := rfl
  exact readPackets_writePackets hnew [[1, 2, 3], [4]] (by decide) _ (by decide) (2 ^ 32 - 1)

end PacketCipher

end XCryptoSsh
