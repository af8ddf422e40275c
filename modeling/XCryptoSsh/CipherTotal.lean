import XCryptoSsh.Cipher

namespace XCryptoSsh
open Go Crypto Call Slice Option
open List (length_append take_append_drop length_take_of_le take_take length_take append_assoc
  length_drop)
set_option autoImplicit true

theorem wp_verifyMac {mac : Option Mac} {Q : Unit → σ → Prop} {E : σ → Prop} {s : σ} :
    (verifyMac mac input tag e).wp Q E s ↔
      (∀ m, mac = some m → m.sum input ≠ tag → E s) ∧
      ((∀ m, mac = some m → m.sum input = tag) → Q () s) := by
  cases mac with
  | none | some m => simp [verifyMac]

namespace StreamPacketCipher

variable {s : StreamPacketCipher} {k : ρ}

theorem wp_xorKeyStream {Q : Bytes → StreamPacketCipher × ρ → Prop} {E} :
    (xorKeyStream src).wp Q E (s, k) ↔
      Q (s.cipher.xorKeyStream src).1 ({ s with cipher := (s.cipher.xorKeyStream src).2 }, k) :=
  Iff.rfl

theorem length_xorKeyStream (c : Stream) (src : Bytes) :
    (c.xorKeyStream src).1.length = src.length := by
  cases c with
  | noneCipher => rfl
  | keyed ks pos => exact length_xorAt ks pos src

theorem wp_xorPrefix_of {Q : Bytes → StreamPacketCipher × ρ → Prop} {E}
    (h : ∀ pre' c, pre'.length = pre.length → Q pre' ({ s with cipher := c }, k)) :
    (xorPrefix pre).wp Q E (s, k) := by
  simp only [xorPrefix, wp_bind, wp_self, wp_ite, wp_xorKeyStream, wp_pure]
  refine ⟨fun _ => h _ _ ?_, fun _ => h _ _ (length_xorKeyStream _ _)⟩
  rw [length_append, length_xorKeyStream, ← length_append, take_append_drop]

theorem wp_resize_of {Q : Unit → StreamPacketCipher × ρ → Prop} {E}
    (h : ∀ b : Slice, b.len = size → Q () ({ s with packetData := b }, k)) :
    (resize size).wp Q E (s, k) := by
  simp only [resize, wp_bind, wp_self, wp_ite, wp_update, wp_inRange]
  refine ⟨fun _ => h _ rfl, fun hcap => ?_⟩
  have hle : size ≤ s.packetData.cap := le_trans (Nat.not_lt.mp hcap) (Nat.mod_le _ _)
  exact ⟨_, upTo_of_le hle, h _ rfl⟩

structure BodyOk (s : StreamPacketCipher) (macHead : Bytes) (length padding : Nat)
    (input : Bytes) : Prop where
  payload : padding + 1 < length
  le_max : length ≤ maxPacket
  enough : length - 1 + s.macSize ≤ input.length
  tag : ∀ m, s.mac = some m → m.sum (macHead ++ if s.etm then input.take (length - 1)
    else (s.cipher.xorKeyStream (input.take (length - 1))).1) =
      (input.drop (length - 1)).take s.macSize

theorem wp_readBody_of {Q : Bytes → StreamPacketCipher × Reader Err → Prop}
    {E : StreamPacketCipher × Reader Err → Prop} (hm : s.macSize ≤ 32) (hl : length < 2 ^ 32)
    (hp : padding < 256)
    (hE : ¬ BodyOk s macHead length padding r.bytes → ∀ t, t.1.mac = s.mac → E t)
    (hQ : ∀ b, BodyOk s macHead length padding r.bytes →
      Q ((s.cipher.xorKeyStream (r.bytes.take (length - 1))).1.take (length - padding - 1))
        ({ s with cipher := (s.cipher.xorKeyStream (r.bytes.take (length - 1))).2, packetData :=
          b },
          { r with bytes := r.bytes.drop (length - 1 + s.macSize) })) :
    (readBody macHead length padding).wp Q E (s, r) := by
  simp only [readBody, wp_bind, wp_failIf]
  rw [u32_of_lt (by omega)]
  refine ⟨fun h => hE (fun ho => ?_) _ rfl, fun hsmall =>
    ⟨fun h => hE (fun ho => ?_) _ rfl, fun hlarge => ?_⟩⟩
  · have := ho.payload
    omega
  · exact absurd ho.le_max (Nat.not_le.mpr h)
  have hmax : length ≤ 256 * 1024 := Nat.not_lt.mp hlarge
  have hone := subU32_of_le (b := 1) (by omega) hl
  have hpad := subU32_of_le (b := padding) (by omega) hl
  have hend := subU32_of_le (b := 1) (a := length - padding) (by omega) (by omega)
  simp only [wp_bind, wp_self]
  rw [hone, hpad, hend, u32_of_lt (by omega)]
  apply wp_resize_of
  intro b hb
  have hbl : b.len ≤ b.cap := b.len_le
  simp only [wp_bind, wp_readInto, wp_self, wp_inRange, wp_xorKeyStream, wp_update, wp_verifyMac]
  refine ⟨fun hr => ?_, fun hr => hE (fun ho => absurd ho.enough (Nat.not_le.mpr hr)) _ rfl⟩
  have hin : (r.bytes.take (length - 1 + s.macSize)).length = b.len := by
    rw [length_take_of_le hr, hb]
  obtain ⟨mac, hmac, hmd, -⟩ := downFrom_of_le (k := length - 1)
    (s := b.store 0 (r.bytes.take (length - 1 + s.macSize))) (by rw [len_store]; omega)
  rw [data_store hin, List.drop_take, Nat.add_sub_cancel_left] at hmd
  have hdata : (b.store 0 (r.bytes.take (length - 1 + s.macSize))).arr.take (length - 1) =
      r.bytes.take (length - 1) := by
    have h := data_store hin
    rw [data, len_store] at h
    have ht := congrArg (List.take (length - 1)) h
    rwa [take_take, take_take, Nat.min_eq_left (by omega), Nat.min_eq_left (by omega)] at ht
  have hplain := length_xorKeyStream s.cipher (r.bytes.take (length - 1))
  rw [length_take_of_le (by omega)] at hplain
  refine ⟨mac, hmac, _, upTo_of_le (le_cap_store (by omega)), ?_⟩
  simp only [data] at hmd ⊢
  rw [hdata, hmd]
  refine ⟨fun m h hne => hE (fun ho => hne (ho.tag m h)) _ rfl, fun htag => ⟨_, upTo_of_le
    (le_cap_store (le_cap_store (by omega))), ?_⟩⟩
  have hout := congrArg (List.take (length - padding - 1)) (take_store_zero hplain
    (s := b.store 0 (r.bytes.take (length - 1 + s.macSize))))
  rw [take_take, Nat.min_eq_left (by omega)] at hout
  rw [wp_pure, hout]
  exact hQ _ ⟨by omega, hmax, hr, htag⟩

theorem readPacket_total (hm : s.macSize ≤ 32) (r : Reader Err) :
    (readPacket seqNum).wp (fun _ t => t.1.mac = s.mac) (fun t => t.1.mac = s.mac) (s, r) := by
  simp only [readPacket, wp_bind, wp_readFull]
  refine ⟨fun h5 => ?_, fun _ => trivial⟩
  apply wp_xorPrefix_of
  intro pre c hpre
  have hlen : (pre.take 4).length = 4 := by
    rw [length_take, hpre, length_take, Nat.min_eq_left h5]
    rfl
  simp only [wp_bind, wp_self]
  exact wp_readBody_of hm (bigEndianUint32_lt hlen) (pre.getD 4 0).toNat_lt (fun _ t ht => ht)
    fun b _ => rfl

end StreamPacketCipher

namespace GcmCipher

variable {c : GcmCipher} {k : ρ}

structure Sized (c : GcmCipher) : Prop where
  iv : c.iv.length = 12
  nonceSize : c.aead.nonceSize = 12
  tagSize : c.aead.tagSize = 16
  cap : c.buf.cap ≤ maxPacket + gcmTagSize

theorem incFrom_of_lt {l : List Nat} {v : Bytes} (h : ∀ i ∈ l, i < v.length) :
    ∃ v', incFrom l v = some v' ∧ v'.length = v.length := by
  induction l generalizing v with
  | nil => exact ⟨v, rfl, rfl⟩
  | cons i l ih =>
    have hi := h i List.mem_cons_self
    have hs : (v.set i (v[i] + 1)).length = v.length := List.length_set
    simp only [incFrom, List.getElem?_eq_getElem hi, bind_some]
    split
    · exact ⟨_, rfl, hs⟩
    · obtain ⟨v', hv, hl⟩ := ih fun j hj => hs ▸ h j (List.mem_cons_of_mem i hj)
      exact ⟨v', hv, hl.trans hs⟩

def nextIV (v : Bytes) : Bytes := (incFrom [11, 10, 9, 8, 7, 6, 5, 4] v).getD v

theorem length_nextIV (h : v.length = 12) : (nextIV v).length = 12 := by
  obtain ⟨v', hv, hl⟩ := incFrom_of_lt (l := [11, 10, 9, 8, 7, 6, 5, 4]) (v := v)
    (by rw [h]; decide)
  rw [nextIV, hv, getD_some, hl, h]

theorem wp_incIV {Q : Unit → GcmCipher × ρ → Prop} {E} (h : c.iv.length = 12) :
    incIV.wp Q E (c, k) ↔ Q () ({ c with iv := nextIV c.iv }, k) := by
  obtain ⟨v, hv, hl⟩ := incFrom_of_lt (l := [11, 10, 9, 8, 7, 6, 5, 4]) (v := c.iv)
    (by rw [h]; decide)
  simp [incIV, nextIV, hv]

theorem wp_resize_of {Q : Unit → GcmCipher × ρ → Prop} {E}
    (h : ∀ b : Slice, b.len = size → b.cap ≤ max c.buf.cap size → Q () ({ c with buf := b }, k)) :
    (resize size).wp Q E (c, k) := by
  simp only [resize, wp_bind, wp_self, wp_ite, wp_update, wp_inRange]
  refine ⟨fun _ => h _ rfl ?_, fun hcap => ⟨_, upTo_of_le (Nat.not_lt.mp hcap), h _ rfl ?_⟩⟩
  · rw [cap_make]
    exact le_max_right _ _
  · exact le_max_left _ _

/-- The authenticated plaintext at the front of the input, when a whole frame is there. -/
def opened (c : GcmCipher) (r : Reader Err) : Option Bytes :=
  let length := bigEndianUint32 (r.bytes.take 4)
  if 4 ≤ r.bytes.length ∧ length ≤ maxPacket ∧ length + gcmTagSize ≤ (r.bytes.drop 4).length then
    c.aead.openBytes c.iv ((r.bytes.drop 4).take (length + gcmTagSize)) (r.bytes.take 4)
  else none

theorem wp_readPlain_of {Q : Nat × Slice → GcmCipher × Reader Err → Prop}
    {E : GcmCipher × Reader Err → Prop} (hc : c.Sized)
    (hE : c.opened r = none → ∀ t, t.1.Sized → E t)
    (hQ : ∀ p plain b, c.opened r = some p → plain.data = p → plain.len = p.length →
      plain.cap = b.cap → b.cap ≤ maxPacket + gcmTagSize →
      Q (p.length, plain) (⟨c.aead, nextIV c.iv, b⟩,
        { r with bytes := (r.bytes.drop 4).drop (p.length + gcmTagSize) })) :
    readPlain.wp Q E (c, r) := by
  simp only [readPlain, wp_bind, wp_readFull]
  refine ⟨fun h4 => ?_, fun h4 => hE ?_ _ hc⟩
  swap
  · simp only [opened]
    exact if_neg fun h => absurd h.1 (Nat.not_le.mpr h4)
  have hl := bigEndianUint32_lt (b := r.bytes.take 4) (by rw [length_take]; omega)
  simp only [wp_bind, wp_failIf]
  refine ⟨fun hlarge => hE ?_ _ hc, fun hlarge => ?_⟩
  · simp only [opened]
    exact if_neg fun h => absurd h.2.1 (Nat.not_le.mpr hlarge)
  have hle := Nat.not_lt.mp hlarge
  have hopen : c.opened r = if bigEndianUint32 (r.bytes.take 4) + gcmTagSize ≤
      (r.bytes.drop 4).length then c.aead.openBytes c.iv ((r.bytes.drop 4).take
        (bigEndianUint32 (r.bytes.take 4) + gcmTagSize)) (r.bytes.take 4) else none := by
    simp only [opened, h4, hle, true_and]
  generalize bigEndianUint32 (r.bytes.take 4) = length at hl hle hopen
  have hsz : u32 (length + gcmTagSize) = length + gcmTagSize := by
    simp only [maxPacket] at hle
    exact u32_of_lt (by simp only [gcmTagSize]; omega)
  rw [hsz]
  apply wp_resize_of
  intro b hb hcap
  have hbc : b.cap ≤ maxPacket + gcmTagSize :=
    hcap.trans (max_le hc.cap (Nat.add_le_add_right hle _))
  have hlb : b.len ≤ b.cap := b.len_le
  simp only [wp_bind, wp_readInto, wp_self, wp_inRange, wp_orFail, wp_update]
  refine ⟨fun hall => ?_, fun hshort => hE ?_ _ ⟨hc.iv, hc.nonceSize, hc.tagSize, ?_⟩⟩
  · rw [if_pos hall] at hopen
    have hbody : ((r.bytes.drop 4).take (length + gcmTagSize)).length = b.len := by
      rw [length_take, Nat.min_eq_left hall, hb]
    generalize (r.bytes.drop 4).take (length + gcmTagSize) = body at hopen hbody
    have hcs := cap_store (s := b) (k := 0) (d := body) (by omega)
    refine ⟨c.opened r, ?_, fun hn => hE hn _ ⟨hc.iv, hc.nonceSize, hc.tagSize, ?_⟩, ?_⟩
    · simp only [openBuf, hc.iv, hc.nonceSize, if_pos, data_store hbody, hopen]
    · exact hcs.trans_le hbc
    intro p hp
    have hlp := c.aead.length_openBytes _ _ _ _ (hopen.symm.trans hp)
    have hpl : length = p.length := by
      rw [hc.tagSize, hbody, hb] at hlp
      exact Nat.add_right_cancel hlp
    have hcs' := cap_store (s := b.store 0 body) (k := 0) (d := p) (by omega)
    rw [wp_incIV (by exact hc.iv)]
    simp only [wp_bind, wp_self, wp_inRange, wp_pure]
    have hup := upTo_of_le (s := (b.store 0 body).store 0 p) (k := p.length) (by omega)
    refine ⟨_, hup, ?_⟩
    rw [hpl]
    exact hQ p _ _ hp (take_store_zero rfl) rfl rfl (by omega)
  · rw [hopen, if_neg (Nat.not_le.mpr hshort)]
  · rw [cap_store (by omega)]
    exact hbc

/-- A plaintext that no honest writer produces: empty, or so short that 255 bytes of padding
do not fit into it. -/
def Malformed (plain : Bytes) : Prop :=
  plain = [] ∨ plain.head? = some 255 ∧ plain.length < 256

theorem wp_unpad {plain : Slice} {E : σ → Prop} {t : σ} (hl : plain.len = plain.data.length)
    (hc : plain.cap ≤ maxPacket + gcmTagSize) (hE : E t) :
    (unpad plain.data.length plain).wp (fun _ => E) E t ↔ ¬ Malformed plain.data := by
  have hlc : plain.len ≤ plain.cap := plain.len_le
  simp only [unpad, wp_bind, wp_inRange, wp_failIf, wp_pure, index, Malformed]
  cases hd : plain.data with
  | nil => simp
  | cons x xs =>
    have hlen : plain.data.length = xs.length + 1 := by rw [hd, List.length_cons]
    have hx := x.toNat_lt
    have h1 : (x + 1).toNat = (x.toNat + 1) % 256 := UInt8.toNat_add x 1
    have h4 : x < 4 ↔ x.toNat < 4 := UInt8.lt_iff_toNat_lt
    have h255 : x = 255 ↔ x.toNat = 255 := UInt8.toNat_inj.symm
    have hbt : (∃ a, plain.between 1 (subU32 (xs.length + 1) x.toNat) = some a) ↔
        1 ≤ subU32 (xs.length + 1) x.toNat ∧ subU32 (xs.length + 1) x.toNat ≤ plain.cap := by
      simp [between]
    simp only [List.getElem?_cons_zero, some.injEq, exists_eq_left', hE, implies_true,
      true_and, and_true, reduceCtorEq, false_or, List.head?_cons, List.length_cons, not_and, hbt,
      h4, h255, h1]
    simp only [maxPacket, gcmTagSize, subU32] at hc ⊢
    omega

/-- Where `readPacket` panics: an authentic frame is there and its plaintext is malformed. -/
def Crashes (c : GcmCipher) (r : Reader Err) : Prop :=
  ∃ p, c.opened r = some p ∧ Malformed p

theorem readPacket_total (hc : c.Sized) (h : ¬ c.Crashes r) :
    (readPacket seqNum).wp (fun _ t => t.1.Sized) (fun t => t.1.Sized) (c, r) := by
  simp only [readPacket, wp_bind]
  apply wp_readPlain_of hc
  · exact fun _ t ht => ht
  intro p plain b hp hd hl hcap hb
  have hs : ({ c with iv := nextIV c.iv, buf := b } : GcmCipher).Sized :=
    ⟨length_nextIV hc.iv, hc.nonceSize, hc.tagSize, hb⟩
  subst hd
  exact (wp_unpad hl (hcap.trans_le hb) (by exact hs)).mpr fun hm => h ⟨_, hp, hm⟩

theorem readPacket_panics (hc : c.Sized) (h : c.Crashes r) :
    (readPacket seqNum (c, r)).1 = .panic := by
  obtain ⟨p, hp, hm⟩ := h
  have hw : ¬ (readPacket seqNum).wp (fun _ _ => True) (fun _ => True) (c, r) := by
    simp only [readPacket, wp_bind]
    apply not_wp_of
    apply wp_readPlain_of hc
    · intro hn
      cases hn.symm.trans hp
    intro p' plain b hp' hd hl hcap hb
    cases hp.symm.trans hp'
    subst hd
    exact fun hu => (wp_unpad hl (hcap.trans_le hb) trivial).mp hu hm
  exact not_not.mp fun hn => hw (wp_true_iff.mpr hn)

end GcmCipher

namespace CbcCipher

variable {c : CbcCipher} {k : ρ}

structure Sized (c : CbcCipher) : Prop where
  block : c.decrypter.block.size = 8 ∨ c.decrypter.block.size = 16
  macSize : c.macSize ≤ 32
  cap : 16 ≤ c.packetData.cap

theorem firstBlockLength_eq (h : c.decrypter.block.size = 8 ∨ c.decrypter.block.size = 16) :
    c.firstBlockLength = c.decrypter.block.size := by
  rcases h with h | h
  · rw [firstBlockLength, h]
    rfl
  · rw [firstBlockLength, h]
    rfl

theorem wp_decryptBetween {Q : Unit → CbcCipher × ρ → Prop} {E} {m : CbcMode} (hi : i ≤ j)
    (hj : j ≤ c.packetData.cap)
    (hd : c.decrypter.decrypt ((c.packetData.arr.take j).drop i) = some (p, m)) :
    (decryptBetween i j).wp Q E (c, k) ↔
      Q () ({ c with packetData := c.packetData.store i p, decrypter := m }, k) := by
  obtain ⟨src, hs, hdata⟩ := between_of_le hi hj
  rw [← hdata] at hd
  simp [decryptBetween, hs, hd]

theorem wp_resize_of {Q : Unit → CbcCipher × ρ → Prop} {E} (hn : n ≤ size)
    (hf : (c.packetData.arr.take n).length = n)
    (h : ∀ b : Slice, b.len = size → b.arr.take n = c.packetData.arr.take n →
      Q () ({ c with packetData := b }, k)) :
    (resize size (c.packetData.arr.take n)).wp Q E (c, k) := by
  simp only [resize, wp_bind, wp_self, wp_ite, wp_update, wp_inRange]
  refine ⟨fun _ => h _ rfl ?_, fun hcap => ?_⟩
  · rw [List.take_of_length_le (hf.trans_le hn)]
    exact take_store_zero hf
  · have hle : size ≤ c.packetData.cap := le_trans (Nat.not_lt.mp hcap) (Nat.mod_le _ _)
    exact ⟨_, upTo_of_le hle, h _ rfl rfl⟩

theorem wp_readFirstBlock_of {Q : Slice → CbcCipher × Reader Err → Prop}
    {E : CbcCipher × Reader Err → Prop} (hc : c.Sized)
    (hE : r.bytes.length < c.decrypter.block.size → ∀ b : Slice, 16 ≤ b.cap →
      E ({ c with packetData := b }, { r with bytes := [] }))
    (hQ : ∀ (p : Bytes) (m : CbcMode) (b first : Slice) (n : Nat),
      c.decrypter.block.size ≤ r.bytes.length →
      c.decrypter.decrypt (r.bytes.take c.decrypter.block.size) = some (p, m) →
      first.data = p → first.len = c.decrypter.block.size → first.arr = b.arr → 16 ≤ b.cap →
      n + c.decrypter.block.size = maxPacket + 4 + c.macSize →
      Q first ({ c with packetData := b, decrypter := m, oracleCamouflage := n },
        { r with bytes := r.bytes.drop c.decrypter.block.size })) :
    readFirstBlock.wp Q E (c, r) := by
  have hb := hc.block
  have hcap := hc.cap
  simp only [readFirstBlock, wp_bind, wp_self, wp_inRange, wp_readInto, wp_update,
    firstBlockLength_eq hb]
  refine ⟨_, upTo_of_le (by omega), fun hr => ?_, fun hr => hE hr _ ?_⟩
  · have htl : (r.bytes.take c.decrypter.block.size).length = c.decrypter.block.size :=
      length_take_of_le hr
    have hmod : (r.bytes.take c.decrypter.block.size).length % c.decrypter.block.size = 0 := by
      rw [htl, Nat.mod_self]
    obtain ⟨p, m, hd, hpl, -⟩ := CbcMode.decrypt_of_mod hmod
    have hst : (c.packetData.store 0 (r.bytes.take c.decrypter.block.size)).arr.take
        c.decrypter.block.size = r.bytes.take c.decrypter.block.size :=
      take_store_zero htl
    have hcs := cap_store (s := c.packetData) (k := 0)
      (d := r.bytes.take c.decrypter.block.size) (by omega)
    have hcs' := cap_store (k := 0) (d := p)
      (s := c.packetData.store 0 (r.bytes.take c.decrypter.block.size)) (by omega)
    rw [wp_decryptBetween (p := p) (m := m) (Nat.zero_le _) (by simp only []; omega)
      (by simp only [List.drop_zero, hst, hd])]
    simp only [wp_bind, wp_self, wp_inRange]
    have hms := hc.macSize
    refine ⟨_, upTo_of_le (by omega), hQ p m _ _ _ hr hd ?_ rfl rfl (by omega) ?_⟩
    · exact take_store_zero (hpl.trans htl)
    simp only [maxPacket]
    rw [u32_of_lt (by omega), subU32_of_le (by omega) (by omega)]
    omega
  · exact hcap.trans (cap_le_cap_store _ _ _)

/-- What `checkLengths` leaves: the length field of a whole number of blocks, and padding that
leaves a payload. -/
structure LengthsOk (blockSize length paddingLength : Nat) : Prop where
  le_max : length ≤ maxPacket
  min_le : 16 ≤ length + 4
  dvd : (length + 4) % blockSize = 0
  padding : 4 ≤ paddingLength
  payload : paddingLength + 1 < length

theorem lengthsOk_iff (hb : b = 8 ∨ b = 16) (hp : padding < 256) :
    LengthsOk b length padding ↔ ¬ maxPacket < length ∧
      ¬ u32 (length + 4) < maxUInt32 cbcMinPacketSize b ∧
      ¬ u32 (length + 4) % maxUInt32 cbcMinPacketSizeMultiple b ≠ 0 ∧
      ¬ (padding < cbcMinPaddingSize ∨ length ≤ u32 (padding + 1)) := by
  have h16 : maxUInt32 cbcMinPacketSize b = 16 := by rcases hb with rfl | rfl <;> rfl
  have h8 : maxUInt32 cbcMinPacketSizeMultiple b = b := by rcases hb with rfl | rfl <;> rfl
  rw [h16, h8]
  constructor
  · rintro ⟨h₁, h₂, h₃, h₄, h₅⟩
    have hu : u32 (length + 4) = length + 4 := u32_of_lt (by simp only [maxPacket] at h₁; omega)
    rw [hu, u32_of_lt (by omega)]
    simp only [cbcMinPaddingSize]
    omega
  · rintro ⟨h₁, h₂, h₃, h₄⟩
    have hu : u32 (length + 4) = length + 4 := u32_of_lt (by simp only [maxPacket] at h₁; omega)
    rw [hu] at h₂ h₃
    rw [u32_of_lt (by omega)] at h₄
    simp only [cbcMinPaddingSize] at h₄
    exact ⟨by omega, by omega, by omega, by omega, by omega⟩

theorem wp_checkLengths_of {Q : Unit → CbcCipher × ρ → Prop} {E} (hb : b = 8 ∨ b = 16)
    (hp : padding < 256) (hQ : LengthsOk b length padding → Q () (c, k))
    (hE : ¬ LengthsOk b length padding → E (c, k)) :
    (checkLengths b length padding).wp Q E (c, k) := by
  rw [lengthsOk_iff hb hp] at hQ hE
  simp only [checkLengths, wp_bind, wp_failIf]
  refine ⟨fun h => hE fun ho => ho.1 h, fun h₁ => ⟨fun h => hE fun ho => ho.2.1 h, fun h₂ =>
    ⟨fun h => hE fun ho => ho.2.2.1 h, fun h₃ => ⟨fun h => hE fun ho => ho.2.2.2 h, fun h₄ => ?_⟩⟩⟩⟩
  exact hQ ⟨h₁, h₂, h₃, h₄⟩

theorem wp_openRest_of {Q : Bytes → CbcCipher × Reader Err → Prop}
    {E : CbcCipher × Reader Err → Prop} {x : Bytes}
    (harr : c.packetData.arr = f ++ (x ++ (y ++ z)))
    (hlen : c.packetData.len = f.length + x.length + y.length)
    (hmod : x.length % c.decrypter.block.size = 0)
    (hj : j ≤ f.length + x.length) (hi : prefixLen ≤ j)
    (hbad : ∀ m b, m.block = c.decrypter.block → b.cap = c.packetData.cap →
      (∀ p m, c.decrypter.decrypt x = some (p, m) →
        ∃ a, c.mac = some a ∧ a.sum (putUint32 seqNum ++ (f ++ p)) ≠ y) →
      E ({ c with packetData := b, decrypter := m }, r))
    (hQ : ∀ p m b, c.decrypter.decrypt x = some (p, m) → b.cap = c.packetData.cap →
      (∀ a, c.mac = some a → a.sum (putUint32 seqNum ++ (f ++ p)) = y) →
      Q (((f ++ p).take j).drop prefixLen) ({ c with packetData := b, decrypter := m }, r)) :
    (openRest seqNum f.length (f.length + x.length) j).wp Q E (c, r) := by
  obtain ⟨p, m, hd, hpl, hblock⟩ := CbcMode.decrypt_of_mod hmod
  have hcap : f.length + x.length + y.length ≤ c.packetData.cap := hlen ▸ c.packetData.len_le
  have hx : ((c.packetData.arr.take (f.length + x.length)).drop f.length) = x := by
    rw [harr, ← append_assoc, ← length_append, List.take_left, List.drop_left]
  rw [openRest, wp_bind, wp_decryptBetween (Nat.le_add_right _ _) (by omega) (by rw [hx, hd])]
  have hst : (c.packetData.store f.length p).arr = f ++ p ++ (y ++ z) := by
    rw [arr_store harr rfl hpl, append_assoc]
  have hcs := cap_store (s := c.packetData) (k := f.length) (d := p) (by omega)
  have hfp : (f ++ p).length = f.length + x.length := by rw [length_append, hpl]
  have hbl := (len_store c.packetData f.length p).trans hlen
  generalize c.packetData.store f.length p = b at hst hcs hbl
  have hdata : b.data = f ++ p ++ y := by
    rw [data, hst, ← append_assoc]
    exact List.take_left' (by rw [length_append, hfp, hbl])
  have htake : b.arr.take (f.length + x.length) = f ++ p := by
    rw [hst]
    exact List.take_left' hfp
  obtain ⟨mac, hmac, hmd, -⟩ := downFrom_of_le (s := b) (k := f.length + x.length) (by omega)
  rw [hdata, List.drop_left' hfp] at hmd
  obtain ⟨packet, hpk, hpd⟩ := between_of_le (s := b) hi (by omega)
  rw [hst, List.take_append_of_le_length (by omega)] at hpd
  simp only [wp_bind, wp_self, wp_inRange, wp_verifyMac, wp_pure]
  refine ⟨mac, hmac, _, upTo_of_le (by omega), ?_, fun hok => ⟨packet, hpk, ?_⟩⟩
  · intro a ha hne
    refine hbad _ _ hblock hcs ?_
    intro p' m' hd'
    cases hd.symm.trans hd'
    refine ⟨a, ha, ?_⟩
    rwa [data, htake, hmd] at hne
  · rw [hpd]
    refine hQ p m b hd hcs ?_
    intro a ha
    have h := hok a ha
    rwa [data, htake, hmd] at h

theorem wp_readRest_of {Q : Bytes → CbcCipher × Reader Err → Prop}
    {E : CbcCipher × Reader Err → Prop} (hc : c.Sized) (hm : c.decrypter.block.size = first.len)
    (hok : LengthsOk first.len length padding)
    (hfirst : first.arr = c.packetData.arr)
    (hshort : r.bytes.length < 4 + length + c.macSize - first.len → ∀ b : Slice, 16 ≤ b.cap →
      E ({ c with packetData := b }, { r with bytes := [] }))
    (hbad : (∀ p m, c.decrypter.decrypt (r.bytes.take (4 + length - first.len)) = some (p, m) →
      ∃ a, c.mac = some a ∧ a.sum (putUint32 seqNum ++ (first.data ++ p)) ≠
        (r.bytes.drop (4 + length - first.len)).take c.macSize) →
      4 + length + c.macSize - first.len ≤ r.bytes.length →
      ∀ m b n, m.block = c.decrypter.block → 16 ≤ b.cap →
      n = subU32 c.oracleCamouflage (4 + length + c.macSize - first.len) →
      E ({ c with packetData := b, decrypter := m, oracleCamouflage := n },
        { r with bytes := r.bytes.drop (4 + length + c.macSize - first.len) }))
    (hQ : ∀ p m b n, 4 + length + c.macSize - first.len ≤ r.bytes.length →
      c.decrypter.decrypt (r.bytes.take (4 + length - first.len)) = some (p, m) →
      (∀ a, c.mac = some a → a.sum (putUint32 seqNum ++ (first.data ++ p)) =
        (r.bytes.drop (4 + length - first.len)).take c.macSize) → 16 ≤ b.cap →
      n = subU32 c.oracleCamouflage (4 + length + c.macSize - first.len) →
      Q (((first.data ++ p).take (4 + length - padding)).drop prefixLen)
        ({ c with packetData := b, decrypter := m, oracleCamouflage := n },
          { r with bytes := r.bytes.drop (4 + length + c.macSize - first.len) })) :
    (readRest seqNum first length padding).wp Q E (c, r) := by
  have hl := hok.le_max
  have hmin := hok.min_le
  have hpay := hok.payload
  have hms := hc.macSize
  have hb : first.len = 8 ∨ first.len = 16 := hm ▸ hc.block
  simp only [maxPacket] at hl
  have hfl : first.data = c.packetData.arr.take first.len := by rw [data, hfirst]
  have hfd : (c.packetData.arr.take first.len).length = first.len := by
    rw [← hfirst]
    exact length_take_of_le first.len_le
  have hstart : u32 (4 + length) = 4 + length := u32_of_lt (by omega)
  simp only [readRest, wp_bind, wp_self]
  rw [hstart, u32_of_lt (by omega), subU32_of_le (by omega) (by omega), hfl]
  rw [hfl] at hbad hQ
  apply wp_resize_of (by omega) hfd
  intro b hbl hbt
  generalize c.packetData.arr.take first.len = f at hfd hbt hbad hQ
  have hbc : 4 + length + c.macSize ≤ b.arr.length := hbl ▸ b.len_le
  obtain ⟨rest, hrest, -, hrl⟩ := downFrom_of_le (s := b) (k := first.len) (by omega)
  rw [hbl] at hrl
  simp only [wp_bind, wp_self, wp_inRange, wp_readInto, wp_update]
  refine ⟨rest, hrest, fun hr => ?_, fun hr => hshort (hrl ▸ hr) _ ?_⟩
  · rw [hrl] at hr ⊢
    have hsub : subU32 c.oracleCamouflage (u32 (4 + length + c.macSize - first.len)) =
        subU32 c.oracleCamouflage (4 + length + c.macSize - first.len) := by
      rw [u32_of_lt (by omega)]
    have hn : 4 + length + c.macSize - first.len = 4 + length - first.len + c.macSize := by omega
    have htake := List.take_add (l := r.bytes) (i := 4 + length - first.len) (j := c.macSize)
    have hlx : (r.bytes.take (4 + length - first.len)).length = 4 + length - first.len :=
      length_take_of_le (by omega)
    have hly : ((r.bytes.drop (4 + length - first.len)).take c.macSize).length = c.macSize :=
      length_take_of_le (by rw [length_drop]; omega)
    rw [← hn] at htake
    rw [htake]
    generalize r.bytes.take (4 + length - first.len) = x at *
    generalize (r.bytes.drop (4 + length - first.len)).take c.macSize = y at *
    have hz : b.arr = f ++ ((b.arr.drop first.len).take (x ++ y).length ++
        (b.arr.drop first.len).drop (x ++ y).length) := by
      rw [take_append_drop, ← hbt, take_append_drop]
    generalize (b.arr.drop first.len).drop (x ++ y).length = z at hz
    have hb₁ : (b.store first.len (x ++ y)).arr = f ++ (x ++ (y ++ z)) := by
      rw [arr_store hz hfd, append_assoc]
      rw [length_take_of_le]
      rw [length_drop, length_append]
      omega
    have hcs := cap_store (s := b) (k := first.len) (d := x ++ y)
      (by rw [length_append, cap]; omega)
    have hfx : 4 + length = f.length + x.length := by omega
    have hdvd : x.length % c.decrypter.block.size = 0 := by
      have h := hok.dvd
      rw [Nat.add_comm, hfx, hfd, Nat.add_mod_left] at h
      rwa [hm]
    rw [hfx, ← hfd] at hQ hbad hsub ⊢
    rw [← hfd] at hcs hb₁
    refine wp_openRest_of (y := y) (z := z) hb₁ ?_ hdvd (by omega) ?_ ?_ ?_
    · rw [len_store, hbl]
      omega
    · simp only [prefixLen]
      omega
    · intro m b' hblock hcap' hne
      refine hbad hne (by omega) m b' _ hblock ?_ hsub
      rw [hcap', hcs, cap]
      omega
    · intro p m b' hd hcap' hmac
      refine hQ p m b' _ (by omega) hd hmac ?_ hsub
      rw [hcap', hcs, cap]
      omega
  · refine le_trans ?_ (cap_le_cap_store _ _ _)
    simp only [cap]
    omega

structure Kept (c c' : CbcCipher) : Prop where
  sized : c'.Sized
  macSize : c'.macSize = c.macSize
  counter : c.oracleCamouflage ≤ maxPacket + 4 + c.macSize →
    c'.oracleCamouflage ≤ maxPacket + 4 + c.macSize

/-- When the input is long enough, the counter is what is still to be discarded of the bytes that
hide which check failed. -/
structure Camouflaged (c : CbcCipher) (r : Reader Err) (t : CbcCipher × Reader Err) : Prop extends
    Kept c t.1 where
  hidden : maxPacket + 4 + c.macSize ≤ r.bytes.length → ∃ k,
    k + t.1.oracleCamouflage = maxPacket + 4 + c.macSize ∧ t.2.bytes = r.bytes.drop k

theorem readPacketLeaky_camouflaged (hc : c.Sized) (r : Reader Err) :
    (readPacketLeaky seqNum).wp (fun _ t => Camouflaged c r t) (Camouflaged c r) (c, r) := by
  have hb := hc.block
  have hms := hc.macSize
  simp only [readPacketLeaky, wp_bind, wp_self]
  apply wp_readFirstBlock_of hc
  · intro hr b hcap
    refine ⟨⟨⟨hb, hms, hcap⟩, rfl, id⟩, fun hle => ?_⟩
    simp only [maxPacket] at hle
    omega
  intro p m b first n hr hd hfd hfl hfa hcap hn
  have hlc := first.len_le
  have hm := CbcMode.block_decrypt hd
  have h4 : 4 < first.data.length := by
    rw [data, length_take_of_le hlc]
    omega
  simp only [wp_bind, wp_inRange, index, List.getElem?_eq_getElem h4]
  refine ⟨_, upTo_of_le (by simp only [cap]; omega), _, rfl, ?_⟩
  have hs : ({ c with packetData := b, decrypter := m, oracleCamouflage := n } : CbcCipher).Sized :=
    ⟨hm ▸ hb, hms, hcap⟩
  have hp := (first.data[4]).toNat_lt
  generalize (first.data[4]).toNat = padding at hp
  generalize bigEndianUint32 _ = length
  apply wp_checkLengths_of hb hp
  · intro hok
    have hmin := hok.min_le
    have hmax := hok.le_max
    simp only [maxPacket] at hmax hn
    -- the rest of the packet is never more than what the counter has left
    have hrest {m' : CbcMode} {b' : Slice} {n' : Nat} (hblock : m'.block = m.block)
      (hcap' : 16 ≤ b'.cap)
        (hn' : n' = subU32 n (4 + length + c.macSize - first.len)) :
        Camouflaged c r (⟨c.mac, c.macSize, m', c.encrypter, b', n'⟩,
          ⟨(r.bytes.drop c.decrypter.block.size).drop (4 + length + c.macSize - first.len),
            r.final⟩) := by
      rw [subU32_of_le (by omega) (by omega)] at hn'
      have hsum : c.decrypter.block.size + (4 + length + c.macSize - first.len) + n' =
          maxPacket + 4 + c.macSize := by
        simp only [maxPacket]
        omega
      exact ⟨⟨⟨hblock ▸ hm ▸ hb, hms, hcap'⟩, rfl,
        fun _ => Nat.le.intro ((Nat.add_comm _ _).trans hsum)⟩, fun _ => ⟨_, hsum, List.drop_drop⟩⟩
    refine wp_readRest_of hs (hm ▸ hfl.symm) (hfl ▸ hok) hfa ?_ ?_ ?_
    · intro hshort b' hcap'
      simp only [length_drop] at hshort
      refine ⟨⟨⟨hs.block, hms, hcap'⟩, rfl, fun _ => ?_⟩, fun hle => ?_⟩
      · simp only [maxPacket]
        omega
      · simp only [maxPacket] at hle
        omega
    · exact fun _ _ m' b' n' hblock hcap' hn' => hrest hblock hcap' hn'
    · exact fun p m' b' n' _ hd' _ hcap' hn' => hrest (CbcMode.block_decrypt hd') hcap' hn'
  · exact fun _ => ⟨⟨hs, rfl, fun _ => Nat.le.intro hn⟩,
      fun _ => ⟨_, (Nat.add_comm _ _).trans hn, rfl⟩⟩

theorem readPacket_total (hc : c.Sized) (r : Reader Err) :
    (readPacket seqNum).wp (fun _ t => Kept c t.1) (fun t => Kept c t.1) (c, r) := by
  have h : (readPacketLeaky seqNum).wp (fun _ t => Camouflaged c r t) (Camouflaged c r) (c, r) :=
    readPacketLeaky_camouflaged hc r
  simp only [wp, readPacket] at h ⊢
  cases hx : readPacketLeaky seqNum (c, r) with
  | mk res t =>
    rw [hx] at h
    cases res with
    | ok p => exact h.toKept
    | error e => cases e <;> exact h.toKept
    | panic => exact h

theorem readPacket_tooLarge {p : Bytes} (hc : c.Sized)
    (hr : c.decrypter.block.size ≤ r.bytes.length)
    (hd : c.decrypter.decrypt (r.bytes.take c.decrypter.block.size) = some (p, m))
    (hl : maxPacket < bigEndianUint32 (p.take 4)) :
    (readPacket seqNum (c, r)).1 = .error (.cbcError "ssh: packet too large") := by
  have hw : readFirstBlock.wp (fun first _ => first.data = p ∧ first.len = c.decrypter.block.size)
      (fun _ => False) (c, r) := by
    apply wp_readFirstBlock_of hc (fun h => absurd hr (Nat.not_le.mpr h))
    intro p' m' b first n _ hd' hfd hfl _ _ _
    cases hd.symm.trans hd'
    exact ⟨hfd, hfl⟩
  obtain ⟨first, t, hx, hfd, hfl⟩ := wp_returns_iff.mp hw
  have hb := hc.block
  have hlen : p.length = first.len := by rw [← hfd, first.length_data]
  have hp : first.data = p.take 4 ++ p.drop 4 := by rw [hfd, take_append_drop]
  obtain ⟨lb, hlb, hlbd⟩ := upTo_of_data hp (length_take_of_le (by omega))
  obtain ⟨padding, hpad⟩ := index_of_lt (s := first) (i := 4) (by omega)
  have hleaky : readPacketLeaky seqNum (c, r) =
      (.error (.cbcError "ssh: packet too large"), t) := by
    rw [readPacketLeaky, bind_of_ok (x := self) rfl, bind_of_ok hx,
      bind_of_ok (inRange_eq_ok.mpr ⟨hlb, rfl⟩),
      bind_of_ok (inRange_eq_ok.mpr ⟨hpad, rfl⟩), hlbd]
    exact bind_of_error (failIf_bind_of hl)
  simp only [readPacket, hleaky]

theorem readPacket_hidden {r r' : Reader Err} (hc : c.Sized)
    (hr : maxPacket + 4 + c.macSize ≤ r.bytes.length)
    (h : readPacket seqNum (c, r) = (.error (.cbcError e), c', r')) :
    r'.bytes = r.bytes.drop (maxPacket + 4 + c.macSize) ∧
      ∃ k, (readPacketLeaky seqNum (c, r)).2.2.bytes = r.bytes.drop k ∧
        k + c'.oracleCamouflage = maxPacket + 4 + c.macSize := by
  have hw : (readPacketLeaky seqNum).wp (fun _ t => Camouflaged c r t) (Camouflaged c r) (c, r) :=
    readPacketLeaky_camouflaged hc r
  simp only [wp] at hw
  simp only [readPacket] at h
  split at h
  · rename_i hx
    rw [hx] at hw ⊢
    cases h
    obtain ⟨k, hk, hbytes⟩ := hw.hidden hr
    refine ⟨?_, k, hbytes, hk⟩
    rw [← hk, ← List.drop_drop, ← hbytes]
    rfl
  · rename_i hne
    exact absurd h (hne _ _ _)

end CbcCipher

theorem length_keyMaterialFrom (r : KexResult) (h : n ≤ fuel) :
    (keyMaterialFrom tag r fuel sofar n).length = n := by
  induction fuel generalizing sofar n with
  | zero =>
    rw [Nat.le_zero.mp h]
    rfl
  | succ fuel ih =>
    cases n with
    | zero => rfl
    | succ n =>
      simp only [keyMaterialFrom]
      generalize hd : r.hash.sum _ = digest
      have hpos := List.length_pos_iff.mpr (hd ▸ r.hash.sum_ne_nil _)
      rw [length_append, ih (by omega), length_take]
      omega

/-- K1 || ... || Kn of RFC 4253, section 7.2. -/
def keyBlocks (tag : Bytes) (r : KexResult) : Nat → Bytes
  | 0 => []
  | 1 => r.hash.sum (r.K ++ r.H ++ tag ++ r.sessionID)
  | n + 2 => keyBlocks tag r (n + 1) ++ r.hash.sum (r.K ++ r.H ++ keyBlocks tag r (n + 1))

theorem keyBlocks_succ (tag : Bytes) (r : KexResult) (n : Nat) :
    keyBlocks tag r (n + 1) = keyBlocks tag r n ++ r.hash.sum (r.K ++ r.H ++
      if keyBlocks tag r n = [] then tag ++ r.sessionID else keyBlocks tag r n) := by
  cases n with
  | zero => simp [keyBlocks]
  | succ n =>
    have hne : keyBlocks tag r (n + 1) ≠ [] := by
      cases n <;> simp [keyBlocks, r.hash.sum_ne_nil]
    rw [if_neg hne]
    rfl

theorem keyBlocks_mono (tag : Bytes) (r : KexResult) (h : m ≤ n) :
    keyBlocks tag r m <+: keyBlocks tag r n := by
  induction n, h using Nat.le_induction with
  | base => exact List.prefix_refl _
  | succ n _ ih =>
    rw [keyBlocks_succ tag r n]
    exact ih.trans (List.prefix_append _ _)

theorem le_length_keyBlocks (tag : Bytes) (r : KexResult) (n : Nat) :
    n ≤ (keyBlocks tag r n).length := by
  induction n with
  | zero => exact Nat.zero_le _
  | succ n ih =>
    rw [keyBlocks_succ, length_append]
    exact Nat.add_le_add ih (List.length_pos_iff.mpr (r.hash.sum_ne_nil _))

theorem keyMaterialFrom_eq (tag : Bytes) (r : KexResult) (hf : n ≤ fuel)
    (hn : (keyBlocks tag r m).length + n ≤ (keyBlocks tag r k).length) :
    keyMaterialFrom tag r fuel (keyBlocks tag r m) n =
      ((keyBlocks tag r k).drop (keyBlocks tag r m).length).take n := by
  induction fuel generalizing m n with
  | zero =>
    rw [Nat.le_zero.mp hf]
    rfl
  | succ fuel ih =>
    cases n with
    | zero => rfl
    | succ n =>
      have hmk : m + 1 ≤ k := by
        by_contra hlt
        have := (keyBlocks_mono tag r (Nat.not_lt.mp hlt)).length_le
        omega
      obtain ⟨rest, hrest⟩ := keyBlocks_mono tag r hmk
      have hlen := congrArg List.length hrest
      have hnext := keyBlocks_succ tag r m
      simp only [keyMaterialFrom]
      generalize hd : r.hash.sum _ = digest at hnext ⊢
      have hpos := List.length_pos_iff.mpr (hd ▸ r.hash.sum_ne_nil _)
      rw [hnext, length_append, length_append] at hlen
      rw [← hnext]
      by_cases hle : n + 1 ≤ digest.length
      · have hz : n + 1 - digest.length = 0 := by omega
        have hdone : keyMaterialFrom tag r fuel (keyBlocks tag r (m + 1)) 0 = [] := by
          cases fuel <;> rfl
        rw [hz, hdone, ← hrest, hnext]
        simp [List.take_append_of_le_length hle]
      · rw [ih (by omega) (by rw [hnext, length_append]; omega), ← hrest, hnext]
        simp [List.take_append]

/-- The loop fills the buffer with the first bytes of K1 || K2 || ...; more rounds than it has bytes
change nothing. -/
theorem generateKeyMaterial_eq (n : Nat) (tag : Bytes) (r : KexResult) :
    generateKeyMaterial n tag r = (keyBlocks tag r n).take n ∧
      n ≤ (keyBlocks tag r n).length ∧ (generateKeyMaterial n tag r).length = n ∧
      (∀ m, n ≤ m → (keyBlocks tag r m).take n = (keyBlocks tag r n).take n) ∧
      ∀ fuel, n ≤ fuel → keyMaterialFrom tag r fuel [] n = generateKeyMaterial n tag r := by
  have hn := le_length_keyBlocks tag r n
  have heq {fuel : Nat} (hf : n ≤ fuel) :
      keyMaterialFrom tag r fuel [] n = (keyBlocks tag r n).take n :=
    keyMaterialFrom_eq (m := 0) tag r hf (by simpa [keyBlocks] using hn)
  refine ⟨heq le_rfl, hn, length_keyMaterialFrom r le_rfl, ?_, ?_⟩
  · intro m hm
    obtain ⟨rest, hrest⟩ := keyBlocks_mono tag r hm
    rw [← hrest, List.take_append_of_le_length hn]
  · exact fun fuel hf => (heq hf).trans (heq le_rfl).symm

theorem size_macModes {mode : MacMode} (h : (macModes P).lookup name = some mode)
    (key : Bytes) : (mode.new key).size ≤ 32 := by
  have hmem : (name, mode) ∈ macModes P := by
    obtain ⟨l₁, l₂, hl, -⟩ := List.lookup_eq_some_iff.mp h
    exact hl ▸ List.mem_append_right l₁ List.mem_cons_self
  simp only [macModes, List.mem_cons, Prod.mk.injEq, List.not_mem_nil, or_false] at hmem
  rcases hmem with ⟨-, rfl⟩ | ⟨-, rfl⟩ | ⟨-, rfl⟩ | ⟨-, rfl⟩
  · exact (P.size_hmacSha256 key).le
  · exact (P.size_hmacSha256 key).le
  · exact (P.size_hmacSha1 key).trans_le (by decide)
  · exact (by decide : 12 ≤ 32)

inductive Built (P : Primitives) : PacketCipher → Prop where
  | stream (m : Mac) (s : Stream) (etm : Bool) (hm : m.size ≤ 32) :
      Built P (.stream ⟨some m, s, etm, make 0⟩)
  | gcm (a : Aead) (iv : Bytes) (hn : a.nonceSize = 12) (ht : a.tagSize = 16)
      (hi : iv.length = 12) : Built P (.gcm ⟨a, iv, make 0⟩)
  | cbc (m : Mac) (mode : CbcMode) (hm : m.size ≤ 32)
      (hb : mode.block.size = 8 ∨ mode.block.size = 16) :
      Built P (.cbc ⟨some m, m.size, mode, mode, make 1024, 0⟩)

theorem newCBCCipher_built {b : Block} (hb : b.size = 8 ∨ b.size = 16)
    (hm : (macMode.new macKey).size ≤ 32)
    (h : newCBCCipher b iv macKey macMode () = (.ok c, t)) : Built P c := by
  simp only [newCBCCipher, bind_eq_ok, inRange_eq_ok, pure_eq_ok] at h
  obtain ⟨mode, _, ⟨hmode, -⟩, rfl, -⟩ := h
  have hblock : mode.block = b := by
    simp only [CbcMode.new] at hmode
    split at hmode
    · cases hmode
      rfl
    · cases hmode
  rw [u32_of_lt (by omega)]
  exact .cbc _ mode hm (hblock ▸ hb)

theorem newPacketCipher_built (h : newPacketCipher P d algs kex () = (.ok c, t)) : Built P c := by
  simp only [newPacketCipher, bind_eq_ok, inRange_eq_ok] at h
  obtain ⟨mode, _, ⟨hmode, -⟩, macMode, _, ⟨hmac, -⟩, h⟩ := h
  have hm := size_macModes hmac
  split at h
  case isTrue hg =>
    simp only [newGCMCipher, bind_eq_ok, orFail_eq_ok, pure_eq_ok] at h
    obtain ⟨b, _, -, a, _, ⟨ha, -⟩, rfl, -⟩ := h
    refine .gcm a _ (P.nonceSize_gcm b a ha) (P.tagSize_gcm b a ha) ?_
    rw [hg] at hmode
    cases hmode
    exact length_keyMaterialFrom kex le_rfl
  case isFalse hg =>
    split at h
    · simp only [newAESCBCCipher, bind_eq_ok, orFail_eq_ok] at h
      obtain ⟨b, _, ⟨hb, -⟩, h⟩ := h
      exact newCBCCipher_built (.inr (P.size_aes _ b hb)) (hm _) h
    split at h
    · simp only [newTripleDESCBCCipher, bind_eq_ok, orFail_eq_ok] at h
      obtain ⟨b, _, ⟨hb, -⟩, h⟩ := h
      exact newCBCCipher_built (.inl (P.size_tripleDes _ b hb)) (hm _) h
    · simp only [bind_eq_ok, pure_eq_ok] at h
      obtain ⟨s, _, -, rfl, -⟩ := h
      exact .stream _ s _ (hm _)

namespace PacketCipher

/-- The states of a cipher that reads: fresh ones, and what any read that returned left. -/
inductive ReadReachable (P : Primitives) : PacketCipher → Prop where
  | unkeyed : ReadReachable P unkeyed
  | new (h : newPacketCipher P d algs kex () = (.ok c, ())) : ReadReachable P c
  | read (h : ReadReachable P c) (hr : (readPacket seqNum (c, r)).1 ≠ .panic) :
      ReadReachable P (readPacket seqNum (c, r)).2.1

def Sized : PacketCipher → Prop
  | .stream s => s.macSize ≤ 32
  | .gcm c => c.Sized
  | .cbc c => c.Sized

/-- Where `readPacket` panics: only AES-GCM does. -/
def Crashes : PacketCipher → Reader Err → Prop
  | .gcm c, r => c.Crashes r
  | _, _ => False

theorem sized_of_built (h : Built P c) : Sized c := by
  cases h with
  | stream m s etm hm => exact (Nat.mod_le _ _).trans hm
  | gcm a iv hn ht hi => exact ⟨hi, hn, ht, Nat.zero_le _⟩
  | cbc m mode hm hb => exact ⟨hb, hm, by rw [cap_make]; decide⟩

theorem readPacket_total (hc : Sized c) (h : ¬ Crashes c r) :
    (readPacket seqNum).wp (fun _ t => Sized t.1) (fun t => Sized t.1) (c, r) := by
  cases c with
  | stream s =>
    have hm (t : StreamPacketCipher × Reader Err) (ht : t.1.mac = s.mac) : t.1.macSize ≤ 32 := by
      rw [StreamPacketCipher.macSize, ht]
      exact hc
    exact (wp_within rfl).mpr (wp_mono (StreamPacketCipher.readPacket_total hc r) (fun _ => hm) hm)
  | gcm c => exact (wp_within rfl).mpr (GcmCipher.readPacket_total hc h)
  | cbc c =>
    exact (wp_within rfl).mpr (wp_mono (CbcCipher.readPacket_total hc r) (fun _ _ h => h.sized)
      fun _ h => h.sized)

theorem readPacket_panics (hc : Sized c) (h : Crashes c r) :
    (readPacket seqNum (c, r)).1 = .panic := by
  cases c with
  | stream s | cbc c => exact h.elim
  | gcm c => exact GcmCipher.readPacket_panics hc h

theorem ReadReachable.sized (h : ReadReachable P c) : Sized c := by
  induction h with
  | unkeyed => exact Nat.zero_le _
  | new h => exact sized_of_built (newPacketCipher_built h)
  | @read c n r h hr ih =>
    have hw : (readPacket n).wp (fun _ t => Sized t.1) (fun t => Sized t.1) (c, r) :=
      readPacket_total ih fun hx => hr (readPacket_panics ih hx)
    exact (wp_invariant hw).2

/-- Every read returns a packet or an error, unless AES-GCM meets an authentic frame whose plaintext
is empty or shorter than its 255 bytes of padding. -/
theorem readPacket_returns_iff (h : ReadReachable P c) (seqNum : Nat) (r : Reader Err) :
    ((∃ p, (readPacket seqNum (c, r)).1 = .ok p) ∨ ∃ e, (readPacket seqNum (c, r)).1 = .error e) ↔
      ¬ Crashes c r := by
  rw [← Result.ne_panic_iff]
  constructor
  · intro hret hx
    exact hret (readPacket_panics h.sized hx)
  intro hx
  have hw : (readPacket seqNum).wp (fun _ t => Sized t.1) (fun t => Sized t.1) (c, r) :=
    readPacket_total h.sized hx
  exact (wp_invariant hw).1

def Counted : PacketCipher → Prop
  | .cbc c => c.oracleCamouflage ≤ maxPacket + 4 + c.macSize
  | _ => True

theorem ReadReachable.counted (h : ReadReachable P c) : Counted c := by
  induction h with
  | unkeyed => trivial
  | new h =>
    cases newPacketCipher_built h with
    | stream => trivial
    | gcm => trivial
    | cbc => exact Nat.zero_le _
  | @read c n r h hr ih =>
    cases c with
    | stream s => trivial
    | gcm c => trivial
    | cbc c =>
      have hk : c.Kept (CbcCipher.readPacket n (c, r)).2.1 :=
        (wp_invariant (CbcCipher.readPacket_total h.sized r)).2
      change _ ≤ maxPacket + 4 + (CbcCipher.readPacket n (c, r)).2.1.macSize
      rw [hk.macSize]
      exact hk.counter ih

end PacketCipher

/-- A read that fails one of the checks takes the same number of bytes, whichever check it was; the
counter that sees to it never wraps around. -/
theorem CbcCipher.readPacket_camouflage (h : PacketCipher.ReadReachable P (.cbc c)) (seqNum : Nat)
    (r : Reader Err) :
    c.oracleCamouflage ≤ maxPacket + 4 + c.macSize ∧
      (maxPacket + 4 + c.macSize ≤ r.bytes.length → ∀ e c' r',
        readPacket seqNum (c, r) = (.error (.cbcError e), c', r') →
        r'.bytes = r.bytes.drop (maxPacket + 4 + c.macSize) ∧
          ∃ k, (readPacketLeaky seqNum (c, r)).2.2.bytes = r.bytes.drop k ∧
            k + c'.oracleCamouflage = maxPacket + 4 + c.macSize) :=
  ⟨h.counted, fun hr _ _ _ he => readPacket_hidden h.sized hr he⟩

def plainBlock (n : Nat) (h : 0 < n) : Block where
  size := n
  size_pos := h
  encrypt := id
  decrypt := id
  length_encrypt _ hb := hb
  length_decrypt _ hb := hb
  decrypt_encrypt _ _ := rfl

def zeroMac (n : Nat) : Mac := ⟨n, fun _ => List.replicate n 0, fun _ => List.length_replicate⟩

def plainAead : Aead where
  nonceSize := 12
  tagSize := 16
  sealBytes _ p _ := p ++ List.replicate 16 0
  openBytes _ c _ := if 16 ≤ c.length then some (c.take (c.length - 16)) else none
  openBytes_sealBytes _ p _ := by simp
  length_sealBytes _ p _ := by simp
  length_openBytes _ c _ p h := by
    split at h
    · cases h
      rw [length_take]
      omega
    · cases h

def plainPrimitives : Primitives where
  aes _ := some (plainBlock 16 (by decide))
  tripleDes _ := some (plainBlock 8 (by decide))
  ctr _ _ _ := 0
  rc4 _ := some fun _ => 0
  gcm _ := some plainAead
  hmacSha256 _ := zeroMac 32
  hmacSha1 _ := zeroMac 20
  size_aes _ b h := by cases h; rfl
  size_tripleDes _ b h := by cases h; rfl
  nonceSize_gcm _ a h := by cases h; rfl
  tagSize_gcm _ a h := by cases h; rfl
  size_hmacSha256 _ := rfl
  size_hmacSha1 _ := rfl

def zeroKex : KexResult := ⟨[], [], ⟨fun _ => [0], fun _ => List.cons_ne_nil _ _⟩, []⟩

def cbcAlgorithms : DirectionAlgorithms := ⟨aes128cbcID, "hmac-sha2-256", "none"⟩

def plainCbc : CbcCipher :=
  let mode : CbcMode := ⟨plainBlock 16 (by decide), List.replicate 16 0, rfl⟩
  ⟨some (zeroMac 32), 32, mode, mode, make 1024, 0⟩

theorem CbcCipher.readPacket_camouflage_plainCbc :
    let r : Reader Err := ⟨List.replicate (maxPacket + 36) 255, .eof⟩
    (readPacket 0 (plainCbc, r)).1 = .error (.cbcError "ssh: packet too large") ∧
      (readPacket 0 (plainCbc, r)).2.2.bytes = [] := by
  have hnew : newPacketCipher plainPrimitives clientKeys cbcAlgorithms zeroKex () =
      (.ok (.cbc plainCbc), ()) := rfl
  have hreach : PacketCipher.ReadReachable plainPrimitives (.cbc plainCbc) := .new hnew
  have hlen : (List.replicate (maxPacket + 36) (255 : UInt8)).length =
      maxPacket + 4 + plainCbc.macSize := List.length_replicate
  have hd : plainCbc.decrypter.decrypt ((List.replicate (maxPacket + 36) 255).take 16) =
      some (List.replicate 16 255, ⟨plainBlock 16 (by decide), List.replicate 16 255, rfl⟩) := by
    rw [List.take_replicate]
    rfl
  intro r
  have h : (readPacket 0 (plainCbc, r)).1 = _ := readPacket_tooLarge hreach.sized
    (hlen.symm ▸ by decide) hd (by decide)
  generalize hx : readPacket 0 (plainCbc, r) = t at h ⊢
  obtain ⟨res, c', r'⟩ := t
  cases h
  obtain ⟨hb, -⟩ := (readPacket_camouflage hreach 0 r).2 hlen.ge _ _ _ hx
  exact ⟨rfl, hb.trans (List.drop_of_length_le hlen.le)⟩

def gcmAlgorithms : DirectionAlgorithms := ⟨gcmCipherID, "hmac-sha2-256", "none"⟩

def plainGcm : PacketCipher := .gcm ⟨plainAead, List.replicate 12 0, make 0⟩

theorem newPacketCipher_plainGcm :
    newPacketCipher plainPrimitives clientKeys gcmAlgorithms zeroKex () = (.ok plainGcm, ()) := by
  rfl

namespace PacketCipher

/-- Authentic frames of no plaintext and of a plaintext of five bytes that claims 255 bytes of
padding: both make `readPacket` panic. -/
theorem readPacket_panics_plainGcm :
    ReadReachable plainPrimitives plainGcm ∧
      (readPacket 0 (plainGcm, ⟨[0, 0, 0, 0] ++ List.replicate 16 0, .eof⟩)).1 = .panic ∧
      (readPacket 0 (plainGcm, ⟨[0, 0, 0, 5, 255, 1, 2, 3, 4] ++ List.replicate 16 0, .eof⟩)).1 =
        .panic :=
  ⟨.new newPacketCipher_plainGcm, by decide, by decide⟩

theorem readPacket_returns_plainGcm :
    ReadReachable plainPrimitives plainGcm ∧
      ((∃ p, (readPacket 0 (plainGcm, ⟨[0, 0, 0, 6, 4, 9, 1, 2, 3, 4] ++ List.replicate 16 0,
          .eof⟩)).1 = .ok p) ∨
        ∃ e, (readPacket 0 (plainGcm, ⟨[0, 0, 0, 6, 4, 9, 1, 2, 3, 4] ++ List.replicate 16 0,
          .eof⟩)).1 = .error e) := by
  have hr := ReadReachable.new newPacketCipher_plainGcm
  refine ⟨hr, (readPacket_returns_iff hr 0 _).mpr ?_⟩
  rintro ⟨p, hp, hm⟩
  have h : some p = some [4, 9, 1, 2, 3, 4] := hp.symm.trans (by decide)
  cases h
  exact absurd hm (by simp [GcmCipher.Malformed])

end PacketCipher

end XCryptoSsh
