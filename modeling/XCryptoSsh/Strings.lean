import XCryptoSsh.Go

namespace XCryptoSsh
open Go
set_option autoImplicit true

def ascii (s : String) : Bytes := s.toList.map fun c => UInt8.ofNat c.toNat

def showBytes (b : Bytes) : String := String.ofList (b.map fun x => Char.ofNat x.toNat)

def quoteByte (x : UInt8) : List Char :=
  match [(0x07, 'a'), (0x08, 'b'), (0x09, 't'), (0x0a, 'n'), (0x0b, 'v'), (0x0c, 'f'), (0x0d, 'r'),
      (0x22, '"'), (0x5c, '\\')].lookup x with
  | some c => ['\\', c]
  | none =>
    if 0x20 ≤ x ∧ x < 0x7f then [Char.ofNat x.toNat]
    else ['\\', 'x', (x.toNat / 16).digitChar, (x.toNat % 16).digitChar]

/-- Bytes as `%q` shows them, where those beyond ASCII count as broken UTF-8. -/
def quoteBytes (b : Bytes) : String := String.ofList ('"' :: b.flatMap quoteByte ++ ['"'])

def spaces : List Bytes :=
  [[0x09], [0x0a], [0x0b], [0x0c], [0x0d], [0x20], [0xc2, 0x85], [0xc2, 0xa0],
    [0xe1, 0x9a, 0x80]] ++
    (List.range 11).map (fun i => [0xe2, 0x80, UInt8.ofNat (0x80 + i)]) ++
    [[0xe2, 0x80, 0xa8], [0xe2, 0x80, 0xa9], [0xe2, 0x80, 0xaf], [0xe2, 0x81, 0x9f],
      [0xe3, 0x80, 0x80]]

theorem length_lt_of_find {words : List Bytes} {b : Bytes}
    (h : words.find? (fun w => decide (w.length > 0) && w.isPrefixOf b) = some w) :
    b.length - w.length < b.length := by
  have hw := List.find?_some h
  obtain ⟨hpos, hle⟩ := Bool.and_eq_true_iff.mp hw
  have hpos := of_decide_eq_true hpos
  have hle := (List.isPrefixOf_iff_prefix.mp hle).length_le
  omega

/-- What is left of `b` when as many of the words as possible have been taken from its front. -/
def dropWords (words : List Bytes) (b : Bytes) : Bytes :=
  match h : words.find? fun w => decide (w.length > 0) && w.isPrefixOf b with
  | none => b
  | some w =>
    have _ := length_lt_of_find h
    dropWords words (b.drop w.length)
termination_by b.length

def trimSpace (b : Bytes) : Bytes :=
  (dropWords (spaces.map List.reverse) (dropWords spaces b).reverse).reverse

theorem dropWords_suffix (words : List Bytes) (b : Bytes) : dropWords words b <:+ b := by
  fun_induction dropWords words b with
  | case1 b hb => exact List.suffix_rfl
  | case2 b w hw _ ih => exact ih.trans (List.drop_suffix _ _)

theorem not_prefix_dropWords (hw : w ∈ words) (hne : w ≠ []) (b : Bytes) :
    ¬w <+: dropWords words b := by
  fun_induction dropWords words b with
  | case1 b hb =>
    intro hp
    have hpos := List.length_pos_iff.mpr hne
    have hno := List.find?_eq_none.mp hb w hw
    rw [decide_eq_true hpos, Bool.true_and, List.isPrefixOf_iff_prefix] at hno
    exact hno hp
  | case2 b w hw _ ih => exact ih

theorem dropWords_eq_self (h : ∀ w ∈ words, w ≠ [] → ¬w <+: b) : dropWords words b = b := by
  rw [dropWords]
  split
  · rfl
  rename_i w hw
  have hp := List.find?_some hw
  obtain ⟨hpos, hp⟩ := Bool.and_eq_true_iff.mp hp
  have hne := List.length_pos_iff.mp (of_decide_eq_true hpos)
  exact (h w (List.mem_of_find?_eq_some hw) hne (List.isPrefixOf_iff_prefix.mp hp)).elim

theorem dropWords_of_begins (h : dropWords words b = b) (hp : p <+: b) : dropWords words p = p := by
  apply dropWords_eq_self
  intro w hw hne hwp
  have hno := not_prefix_dropWords hw hne b
  rw [h] at hno
  exact hno (hwp.trans hp)

theorem dropWords_append_cons (ha : ∀ w ∈ words, a ∉ w) (x y : Bytes) :
    ∃ z, z <:+ x ∧ dropWords words (x ++ a :: y) = z ++ a :: y := by
  induction hn : x.length using Nat.strong_induction_on generalizing x with
  | _ n ih =>
    rw [dropWords]
    split
    · exact ⟨x, List.suffix_rfl, rfl⟩
    rename_i w hw
    have hlt := length_lt_of_find hw
    have hp := List.find?_some hw
    obtain ⟨t, ht⟩ := List.isPrefixOf_iff_prefix.mp (Bool.and_eq_true_iff.mp hp).2
    have haw := ha w (List.mem_of_find?_eq_some hw)
    obtain ⟨l, rfl⟩ : ∃ l, x = w ++ l := by
      rcases List.append_eq_append_iff.mp ht with ⟨l, hl, -⟩ | ⟨l, hl, hl'⟩
      · exact ⟨l, hl⟩
      cases l with
      | nil => exact ⟨[], by rw [hl, List.append_nil, List.append_nil]⟩
      | cons c l =>
        obtain ⟨rfl, -⟩ := List.cons.inj hl'
        exact (haw (by rw [hl]; simp)).elim
    have hd : (w ++ l ++ a :: y).drop w.length = l ++ a :: y := by
      rw [List.append_assoc, List.drop_left]
    rw [List.length_append] at hn
    obtain ⟨z, hz, he⟩ := ih l.length (by omega) l rfl
    refine ⟨z, hz.trans (List.suffix_append _ _), ?_⟩
    change dropWords words ((w ++ l ++ a :: y).drop w.length) = _
    rw [hd, he]

theorem dropWords_of_trimSpace (h : trimSpace b = b) : dropWords spaces b = b := by
  have hs := dropWords_suffix spaces b
  have hr := (dropWords_suffix (spaces.map List.reverse) (dropWords spaces b).reverse).length_le
  have hl := congrArg List.length h
  unfold trimSpace at hl
  rw [List.length_reverse] at hl hr
  have hle := hs.length_le
  exact hs.eq_of_length (by omega)

theorem exists_trimSpace (hb : dropWords spaces (front ++ z :: tail) = front ++ z :: tail)
    (hz : ∀ w ∈ spaces, z ∉ w) :
    ∃ tail', tail' <+: tail ∧ trimSpace (front ++ z :: tail) = front ++ z :: tail' := by
  have hz' : ∀ w ∈ spaces.map List.reverse, z ∉ w := by
    intro w hw hmem
    obtain ⟨v, hv, rfl⟩ := List.mem_map.mp hw
    exact hz v hv (List.mem_reverse.mp hmem)
  obtain ⟨t, ht, he⟩ := dropWords_append_cons hz' tail.reverse front.reverse
  refine ⟨t.reverse, ?_, ?_⟩
  · rw [← List.reverse_suffix, List.reverse_reverse]
    exact ht
  have hrev : (front ++ z :: tail).reverse = tail.reverse ++ z :: front.reverse := by simp
  rw [trimSpace, hb, hrev, he]
  simp

theorem trimSpace_prefix (hb : dropWords spaces b = b) : trimSpace b <+: b := by
  unfold trimSpace
  rw [hb, ← List.reverse_suffix, List.reverse_reverse]
  exact dropWords_suffix _ _

theorem trimSpace_of_suffix (hl : trimSpace l = l) (hs : s <:+ l) (hb : dropWords spaces s = s) :
    trimSpace s = s := by
  have hr : dropWords (spaces.map List.reverse) l.reverse = l.reverse := by
    have h := congrArg List.reverse hl
    rwa [trimSpace, dropWords_of_trimSpace hl, List.reverse_reverse] at h
  unfold trimSpace
  rw [hb, dropWords_of_begins hr (List.reverse_prefix.mpr hs), List.reverse_reverse]

theorem trimSpace_blank_cons (b : Bytes) : trimSpace (0x20 :: b) = trimSpace b := by
  have h : dropWords spaces (0x20 :: b) = dropWords spaces b := by
    rw [dropWords]
    rfl
  unfold trimSpace
  rw [h]

theorem length_trimSpace_le (b : Bytes) : (trimSpace b).length ≤ b.length := by
  have hl := (dropWords_suffix spaces b).length_le
  have hr := (dropWords_suffix (spaces.map List.reverse) (dropWords spaces b).reverse).length_le
  unfold trimSpace
  rw [List.length_reverse] at hr ⊢
  omega

theorem trimSpace_nil : trimSpace [] = [] := List.length_eq_zero_iff.mp
  (Nat.le_zero.mp (length_trimSpace_le []))

/-- The tokens of a `bufio.Scanner` that splits into lines, and whether it then found a line that
does not fit its buffer. -/
def scanLines : List Bytes → List Bytes × Bool
  | [] => ([], false)
  | [last] =>
    if last.length ≥ 65536 then ([], true)
    else if last = [] then ([], false) else ([dropCR last], false)
  | line :: rest =>
    if line.length ≥ 65536 then ([], true)
    else
      let (lines, tooLong) := scanLines rest
      (dropCR line :: lines, tooLong)
where
  dropCR (line : Bytes) : Bytes :=
    if line.getLast? = some 0x0d then line.dropLast else line

def textLines (contents : Bytes) : List Bytes × Bool := scanLines (contents.splitOn 0x0a)

def base64Alphabet : Bytes :=
  ascii "ABCDEFGHIJKLMNOPQRSTUVWXYZabcdefghijklmnopqrstuvwxyz0123456789+/"

def base64Digit (n : Nat) : UInt8 := base64Alphabet.getD n 0

def base64Value (x : UInt8) : Option Nat := base64Alphabet.findIdx? fun y => y == x

def base64Encode : Bytes → Bytes
  | a :: b :: c :: rest =>
    let n := a.toNat * 65536 + b.toNat * 256 + c.toNat
    base64Digit (n / 262144) :: base64Digit (n / 4096 % 64) :: base64Digit (n / 64 % 64) ::
      base64Digit (n % 64) :: base64Encode rest
  | [a, b] =>
    let n := a.toNat * 65536 + b.toNat * 256
    [base64Digit (n / 262144), base64Digit (n / 4096 % 64), base64Digit (n / 64 % 64), 0x3d]
  | [a] =>
    let n := a.toNat * 65536
    [base64Digit (n / 262144), base64Digit (n / 4096 % 64), 0x3d, 0x3d]
  | [] => []

/-- The groups of four digits; the bits that are left over in the last one need not be 0. -/
def base64Groups : Bytes → Option Bytes
  | [] => some []
  | a :: b :: c :: d :: rest => do
    let x ← base64Value a
    let y ← base64Value b
    if c = 0x3d then
      if d = 0x3d ∧ rest = [] then some [UInt8.ofNat (x * 4 + y / 16)] else none
    else
      let z ← base64Value c
      if d = 0x3d then
        if rest = [] then some [UInt8.ofNat (x * 4 + y / 16), UInt8.ofNat (y * 16 + z / 4)] else
          none
      else
        let w ← base64Value d
        let out ← base64Groups rest
        some (UInt8.ofNat (x * 4 + y / 16) :: UInt8.ofNat (y * 16 + z / 4) ::
          UInt8.ofNat (z * 64 + w) :: out)
  | _ => none

/-- The offset of a `CorruptInputError` in an input of `n` bytes, from the digit `j` of a group
on. -/
def corruptInput (n j : Nat) : List (UInt8 × Nat) → Nat
  | [] => n - j
  | (x, i) :: rest =>
    if (base64Value x).isSome then corruptInput n ((j + 1) % 4) rest
    else if x ≠ 0x3d ∨ j < 2 then i
    else if j = 3 then rest.head?.elim n (·.2)
    else match rest with
      | [] => n
      | (y, k) :: rest => if y ≠ 0x3d then k - 1 else rest.head?.elim n (·.2)

/-- `base64.StdEncoding.DecodeString`, which takes no notice of line breaks. -/
def base64Decode (s : Bytes) : Except String Bytes :=
  match base64Groups (s.filter fun x => x != 0x0a && x != 0x0d) with
  | some out => .ok out
  | none => .error ("illegal base64 data at input byte " ++ toString
      (corruptInput s.length 0 (s.zipIdx.filter fun x => x.1 != 0x0a && x.1 != 0x0d)))

theorem mem_of_base64Value (h : base64Value x = some n) : x ∈ base64Alphabet := by
  have hany : (base64Alphabet.any fun y => y == x) = true := by
    rw [← List.findIdx?_isSome]
    exact Option.isSome_of_eq_some h
  obtain ⟨y, hy, he⟩ := List.any_eq_true.mp hany
  rwa [← eq_of_beq he]

theorem mem_of_base64Groups {s out : Bytes} (h : base64Groups s = some out) :
    ∀ x ∈ s, x ∈ base64Alphabet ∨ x = 0x3d := by
  match s with
  | [] => exact nofun
  | [_] | [_, _] | [_, _, _] => cases h
  | a :: b :: c :: d :: rest =>
    simp only [base64Groups, Option.bind_eq_bind, Option.bind_eq_some_iff] at h
    obtain ⟨n, ha, m, hb, h⟩ := h
    have ha := mem_of_base64Value ha
    have hb := mem_of_base64Value hb
    split at h
    · split at h
      · rename_i hc hd
        simp [ha, hb, hc, hd.1, hd.2]
      · cases h
    obtain ⟨k, hc, h⟩ := Option.bind_eq_some_iff.mp h
    have hc := mem_of_base64Value hc
    split at h
    · split at h
      · rename_i hd hrest
        simp [ha, hb, hc, hd, hrest]
      · cases h
    obtain ⟨j, hd, h⟩ := Option.bind_eq_some_iff.mp h
    obtain ⟨rest', hrest, h⟩ := Option.bind_eq_some_iff.mp h
    have hd := mem_of_base64Value hd
    have ih := mem_of_base64Groups hrest
    simp only [List.mem_cons, forall_eq_or_imp]
    exact ⟨.inl ha, .inl hb, .inl hc, .inl hd, ih⟩

def addrError (addr : Bytes) (why : String) : Except String α :=
  .error (if addr = [] then why else "address " ++ showBytes addr ++ ": " ++ why)

def splitHostPort (hostport : Bytes) : Except String (Bytes × Bytes) :=
  if 0x3a ∉ hostport then addrError hostport "missing port in address"
  else
    -- the port starts after the last colon
    let i := hostport.length - 1 - hostport.reverse.idxOf 0x3a
    let port := hostport.drop (i + 1)
    if hostport.head? = some 0x5b then
      if 0x5d ∉ hostport then addrError hostport "missing ']' in address"
      else
        let close := hostport.idxOf 0x5d
        if close + 1 = hostport.length then addrError hostport "missing port in address"
        else if close + 1 ≠ i then
          if hostport.getD (close + 1) 0 = 0x3a then
            addrError hostport "too many colons in address"
          else addrError hostport "missing port in address"
        else if 0x5b ∈ hostport.drop 1 then addrError hostport "unexpected '[' in address"
        else if 0x5d ∈ hostport.drop (close + 1) then
          addrError hostport "unexpected ']' in address"
        else .ok ((hostport.take close).drop 1, port)
    else if 0x3a ∈ hostport.take i then addrError hostport "too many colons in address"
    else if 0x5b ∈ hostport then addrError hostport "unexpected '[' in address"
    else if 0x5d ∈ hostport then addrError hostport "unexpected ']' in address"
    else .ok (hostport.take i, port)

end XCryptoSsh
