import Mathlib.Data.List.TakeWhile
import XCryptoSsh.KeySafety

namespace XCryptoSsh
open Go
open List (length_append append_assoc getLastD_concat nil_append append_nil cons_append
  mem_cons_self)
set_option autoImplicit true

def isBlank (x : UInt8) : Bool := x == 0x20 || x == 0x09

def parseAuthorizedKey (E : Elliptic) (input : Bytes) : Except Err (PublicKey × Bytes) :=
  let input := trimSpace input
  match base64Decode (input.takeWhile fun x => !isBlank x) with
  | .error e => .error (.text e)
  | .ok blob => do
    let out ← parsePublicKey E blob
    pure (out, trimSpace (input.dropWhile fun x => !isBlank x))

/-- The loop over a line that collects options: `i` is the index, and the last argument is what is
left to read. -/
def scanOptions (input : Bytes) (i optionStart : Nat) (inQuote : Bool)
    (candidateOptions : List Bytes) : Bytes → List Bytes × Nat
  -- the index stays at the last byte
  | [] => (candidateOptions, i - 1)
  | b :: left =>
    let isEnd := !inQuote && isBlank b
    let ends := (b == 0x2c && !inQuote) || isEnd
    let candidateOptions :=
      if ends && decide (i - optionStart > 0) then
        candidateOptions ++ [(input.take i).drop optionStart]
      else candidateOptions
    let optionStart := if ends then i + 1 else optionStart
    if isEnd then (candidateOptions, i)
    else
      let toggles := b == 0x22 && (i == 0 || input.getD (i - 1) 0 != 0x5c)
      scanOptions input (i + 1) optionStart (inQuote ^^ toggles) candidateOptions left

/-- What one line holds; `none` when the function goes on to the next one. -/
def keyOnLine (E : Elliptic) (input : Bytes) : Option (PublicKey × Bytes × List Bytes) :=
  if input.length = 0 ∨ input.head? = some 0x23 then none
  else
    match input.dropWhile fun x => !isBlank x with
    | [] => none
    | tail =>
      match parseAuthorizedKey E tail with
      | .ok (out, comment) => some (out, comment, [])
      | .error _ =>
        -- no key type recognised: maybe there is an options field at the beginning
        let (candidateOptions, i) := scanOptions input 0 0 false [] input
        match (input.drop i).dropWhile isBlank with
        | [] => none
        | input =>
          match input.dropWhile fun x => !isBlank x with
          | [] => none
          | tail =>
            match parseAuthorizedKey E tail with
            | .ok (out, comment) => some (out, comment, candidateOptions)
            | .error _ => none

theorem length_dropWhile_sub_lt {b : Bytes} (h : b ≠ []) (p : UInt8 → Bool) :
    (b.dropWhile p).length - 1 < b.length := by
  have hle := (List.dropWhile_suffix (l := b) p).length_le
  have hpos := List.length_pos_iff.mpr h
  omega

/-- `ParseAuthorizedKey`: the key, its comment, the options and the rest of the input. -/
def parseAuthorizedKeys (E : Elliptic) (input : Bytes) :
    Except Err (PublicKey × Bytes × List Bytes × Bytes) :=
  if h : input = [] then .error (.text "ssh: no key found")
  else
    have _ := length_dropWhile_sub_lt h fun x => x != 0x0a
    let rest := (input.dropWhile fun x => x != 0x0a).drop 1
    let line := (input.takeWhile fun x => x != 0x0a).takeWhile fun x => x != 0x0d
    match keyOnLine E (trimSpace line) with
    | some (out, comment, options) => .ok (out, comment, options, rest)
    | none => parseAuthorizedKeys E rest
termination_by input.length

/-- Whether the text ends inside double quotes; `none` when a blank or a comma is outside of them.
A quote after a backslash is part of the text. -/
def inQuotes (prev : UInt8) (quoted : Bool) : Bytes → Option Bool
  | [] => some quoted
  | b :: left =>
    if !quoted && (isBlank b || b == 0x2c) then none
    else inQuotes b (quoted ^^ (b == 0x22 && prev != 0x5c)) left

/-- An option: its quotes are closed, and its blanks and commas are inside of them. -/
def WellQuoted (o : Bytes) : Prop := inQuotes 0 false o = some false

instance (o : Bytes) : Decidable (WellQuoted o) := inferInstanceAs (Decidable (_ = _))

theorem inQuotes_prev (h : prev ≠ 0x5c) (o : Bytes) :
    inQuotes prev quoted o = inQuotes 0 quoted o := by
  cases o with
  | nil => rfl
  | cons b left =>
    have h0 : (prev != 0x5c) = ((0 : UInt8) != 0x5c) := by rw [bne_iff_ne.mpr h]; rfl
    rw [inQuotes, inQuotes, h0]

theorem scanOptions_cons (hin : input = before ++ b :: left) :
    scanOptions input before.length optionStart quoted acc (b :: left) =
      let isEnd := !quoted && isBlank b
      let ends := (b == 0x2c && !quoted) || isEnd
      let acc := if ends && decide (before.length - optionStart > 0) then
        acc ++ [before.drop optionStart] else acc
      if isEnd then (acc, before.length)
      else scanOptions input (before ++ [b]).length
        (if ends then before.length + 1 else optionStart)
          (quoted ^^ (b == 0x22 && before.getLastD 0 != 0x5c)) acc left := by
  have htake : input.take before.length = before := by rw [hin, List.take_left]
  have hlast : (before.length == 0 || input.getD (before.length - 1) 0 != 0x5c) =
      (before.getLastD 0 != 0x5c) := by
    rcases List.eq_nil_or_concat before with rfl | ⟨l, a, rfl⟩
    · rfl
    rw [List.concat_eq_append] at hin ⊢
    have hget : input.getD ((l ++ [a]).length - 1) 0 = a := by
      rw [hin, length_append, List.length_singleton, Nat.add_sub_cancel, append_assoc,
        List.getD_append_right _ _ _ _ (Nat.le_refl _), Nat.sub_self]
      rfl
    rw [hget, getLastD_concat]
    simp
  rw [scanOptions, htake, hlast, length_append, List.length_singleton]

theorem scanOptions_text (hin : input = before ++ (o ++ tail))
    (ho : inQuotes (before.getLastD 0) quoted o = some quoted') :
    scanOptions input before.length optionStart quoted acc (o ++ tail) =
      scanOptions input (before ++ o).length optionStart quoted' acc tail := by
  induction o generalizing before quoted with
  | nil =>
    cases ho
    rw [nil_append, append_nil]
  | cons b o ih =>
    unfold inQuotes at ho
    split at ho
    · cases ho
    rename_i hb
    have hend : (!quoted && isBlank b) = false := by grind
    have hcomma : (b == 0x2c && !quoted) = false := by grind
    rw [cons_append] at hin ⊢
    rw [scanOptions_cons hin]
    simp only [hcomma, hend, Bool.or_false, Bool.false_and, Bool.false_eq_true, if_false]
    have hlast : (before ++ [b]).getLastD 0 = b := getLastD_concat
    rw [ih (by rw [hin]; simp) (by rw [hlast]; exact ho)]
    simp

theorem scanOptions_stop (hin : input = before ++ (o ++ b :: tail)) :
    scanOptions input (before ++ o).length before.length false acc (b :: tail) =
      if isBlank b then (acc ++ [o].filter (· ≠ []), (before ++ o).length)
      else if b == 0x2c then
        scanOptions input (before ++ o ++ [b]).length (before ++ o ++ [b]).length false
          (acc ++ [o].filter (· ≠ [])) tail
      else scanOptions input (before ++ o ++ [b]).length before.length
        (b == 0x22 && (before ++ o).getLastD 0 != 0x5c) acc tail := by
  have hacc : (if decide ((before ++ o).length - before.length > 0) then
      acc ++ [(before ++ o).drop before.length] else acc) = acc ++ [o].filter (· ≠ []) := by
    rw [List.drop_left, length_append, Nat.add_sub_cancel_left]
    cases o <;> simp
  rw [scanOptions_cons (by rw [hin, append_assoc])]
  by_cases hb : isBlank b = true
  · simp only [hb, Bool.not_false, Bool.and_true, Bool.or_true, Bool.true_and, if_true, hacc]
  rw [Bool.not_eq_true] at hb
  by_cases hc : b = 0x2c
  · subst hc
    simp only [hb, Bool.not_false, Bool.and_false, Bool.or_false, Bool.and_true, beq_self_eq_true,
      Bool.true_and, if_true, hacc, Bool.false_eq_true, if_false]
    simp [length_append]
    rfl
  · simp [hb, hc]

theorem scanOptions_options (hne : os ≠ []) (hos : ∀ o ∈ os, WellQuoted o)
    (hin : input = before ++ ([0x2c].intercalate os ++ 0x20 :: tail))
    (hlast : before.getLastD 0 ≠ 0x5c) :
    scanOptions input before.length before.length false acc
        ([0x2c].intercalate os ++ 0x20 :: tail) =
      (acc ++ os.filter (· ≠ []), (before ++ [0x2c].intercalate os).length) := by
  induction os generalizing before acc with
  | nil => exact (hne rfl).elim
  | cons o os ih =>
    have ho : inQuotes (before.getLastD 0) false o = some false := by
      rw [inQuotes_prev hlast]
      exact hos o mem_cons_self
    cases os with
    | nil =>
      rw [List.intercalate_singleton] at hin ⊢
      rw [scanOptions_text hin ho, scanOptions_stop hin]
      rfl
    | cons o' os =>
      rw [List.intercalate_cons_cons, append_assoc, append_assoc] at hin ⊢
      rw [List.singleton_append] at hin ⊢
      rw [scanOptions_text hin ho, scanOptions_stop hin]
      change scanOptions input (before ++ o ++ [0x2c]).length (before ++ o ++ [0x2c]).length false
        (acc ++ [o].filter (· ≠ [])) _ = _
      rw [ih (by exact nofun) (fun x hx => hos x (List.mem_cons_of_mem _ hx))
        (by rw [hin]; simp) (by rw [getLastD_concat]; decide)]
      have hf : (o :: o' :: os).filter (· ≠ []) =
          [o].filter (· ≠ []) ++ (o' :: os).filter (· ≠ []) := List.filter_append [o] _
      rw [hf]
      simp only [append_assoc, List.singleton_append]

def quotedBlanks (prev : UInt8) (quoted : Bool) : Bytes → Bool
  | [] => true
  | b :: left =>
    (quoted || !isBlank b) && quotedBlanks b (quoted ^^ (b == 0x22 && prev != 0x5c)) left

theorem quotedBlanks_of_append {p : Bytes} (h : quotedBlanks prev quoted (p ++ l) = true) :
    quotedBlanks prev quoted p = true := by
  induction p generalizing prev quoted with
  | nil => rfl
  | cons b p ih =>
    obtain ⟨hb, h⟩ := Bool.and_eq_true_iff.mp h
    exact Bool.and_eq_true_iff.mpr ⟨hb, ih h⟩

theorem quotedBlanks_append {o : Bytes} (ho : inQuotes prev quoted o = some quoted')
    (h : quotedBlanks ((prev :: o).getLastD 0) quoted' l = true) :
    quotedBlanks prev quoted (o ++ l) = true := by
  induction o generalizing prev quoted with
  | nil =>
    cases ho
    exact h
  | cons b o ih =>
    unfold inQuotes at ho
    split at ho
    · cases ho
    rename_i hb
    refine Bool.and_eq_true_iff.mpr ⟨?_, ih ho ?_⟩
    · grind
    · exact h

theorem quotedBlanks_options (hos : ∀ o ∈ os, WellQuoted o) (hprev : prev ≠ 0x5c) :
    quotedBlanks prev false ([0x2c].intercalate os) = true := by
  induction os generalizing prev with
  | nil => rfl
  | cons o os ih =>
    have ho : inQuotes prev false o = some false := by
      rw [inQuotes_prev hprev]
      exact hos o mem_cons_self
    cases os with
    | nil =>
      rw [List.intercalate_singleton, ← append_nil o]
      exact quotedBlanks_append ho rfl
    | cons o' os =>
      rw [List.intercalate_cons_cons, append_assoc]
      apply quotedBlanks_append ho
      exact ih (fun x hx => hos x (List.mem_cons_of_mem _ hx)) (by decide)

theorem scanOptions_end (hin : input = before ++ left)
    (h : quotedBlanks (before.getLastD 0) quoted left = true) :
    (scanOptions input before.length optionStart quoted acc left).2 = input.length - 1 := by
  induction left generalizing before quoted optionStart acc with
  | nil => rw [hin, append_nil, scanOptions]
  | cons b left ih =>
    obtain ⟨hb, h⟩ := Bool.and_eq_true_iff.mp h
    have hend : (!quoted && isBlank b) = false := by grind
    rw [scanOptions_cons hin]
    simp only [hend, Bool.false_eq_true, if_false]
    apply ih (by rw [hin]; simp)
    rw [getLastD_concat]
    exact h

def IsKey (E : Elliptic) (word : Bytes) : Prop :=
  ∃ blob key, base64Decode word = .ok blob ∧ parsePublicKey E blob = .ok key

def secondWord (line : Bytes) : Bytes :=
  (trimSpace (line.dropWhile fun x => !isBlank x)).takeWhile fun x => !isBlank x

theorem parseAuthorizedKey_eq_ok : parseAuthorizedKey E input = .ok (key, comment) ↔
    (∃ blob, base64Decode ((trimSpace input).takeWhile fun x => !isBlank x) = .ok blob ∧
      parsePublicKey E blob = .ok key) ∧
    trimSpace ((trimSpace input).dropWhile fun x => !isBlank x) = comment := by
  unfold parseAuthorizedKey
  cases hd : base64Decode ((trimSpace input).takeWhile fun x => !isBlank x) with
  | error e =>
    simp only [hd]
    constructor
    · exact nofun
    · rintro ⟨⟨blob, hb, -⟩, -⟩
      cases hb
  | ok blob =>
    simp only [hd]
    constructor
    · intro h
      obtain ⟨out, hout, h⟩ := except_bind_eq_ok.mp h
      cases h
      exact ⟨⟨blob, rfl, hout⟩, rfl⟩
    · rintro ⟨⟨blob, ⟨⟩, hkey⟩, rfl⟩
      exact except_bind_eq_ok.mpr ⟨key, hkey, rfl⟩

theorem isKey_secondWord_iff : IsKey E (secondWord line) ↔
    ∃ r, parseAuthorizedKey E (line.dropWhile fun x => !isBlank x) = .ok r := by
  constructor
  · rintro ⟨blob, key, hblob, hkey⟩
    exact ⟨(key, _), parseAuthorizedKey_eq_ok.mpr ⟨⟨blob, hblob, hkey⟩, rfl⟩⟩
  rintro ⟨⟨key, comment⟩, h⟩
  obtain ⟨⟨blob, hblob, hkey⟩, -⟩ := parseAuthorizedKey_eq_ok.mp h
  exact ⟨blob, key, hblob, hkey⟩

theorem getLast_trimSpace (h : (trimSpace b).getLast? = some x) : isBlank x = false := by
  by_contra hx
  rw [Bool.not_eq_false] at hx
  have hw : [x] ∈ spaces.map List.reverse := by
    rcases Bool.or_eq_true_iff.mp hx with hx | hx
    · rw [eq_of_beq hx]; decide
    · rw [eq_of_beq hx]; decide
  apply not_prefix_dropWords hw (by exact nofun) (dropWords spaces b).reverse
  unfold trimSpace at h
  rw [List.getLast?_reverse] at h
  obtain ⟨l, hl⟩ := List.head?_eq_some_iff.mp h
  exact ⟨l, hl.symm⟩

theorem keyOnLine_of_quoted (hq : quotedBlanks 0 false input = true)
    (hlast : ∀ x, input.getLast? = some x → isBlank x = false)
    (h : keyOnLine E input = some (key, comment, os)) : os = [] := by
  unfold keyOnLine at h
  split at h
  · cases h
  rename_i hne
  split at h
  · cases h
  split at h
  · cases h
    rfl
  have hscan :
      (scanOptions input ([] : Bytes).length 0 false [] input).2 = input.length - 1 :=
    scanOptions_end rfl hq
  cases hs : scanOptions input 0 0 false [] input with
  | mk candidateOptions i =>
    change (scanOptions input 0 0 false [] input).2 = _ at hscan
    rw [hs] at h hscan
    obtain rfl : i = input.length - 1 := hscan
    rcases List.eq_nil_or_concat input with rfl | ⟨l, x, rfl⟩
    · exact (hne (.inl rfl)).elim
    rw [List.concat_eq_append] at h hlast
    have hx := hlast x List.getLast?_concat
    simp [hx] at h

theorem keyOnLine_of_options (hne : os ≠ []) (hos : ∀ o ∈ os, WellQuoted o) (htype : word ≠ [])
    (hword : ∀ x ∈ word, isBlank x = false)
    (hhash : ([0x2c].intercalate os ++ 0x20 :: (word ++ 0x20 :: body)).head? ≠ some 0x23) :
    keyOnLine E ([0x2c].intercalate os ++ 0x20 :: (word ++ 0x20 :: body)) =
      match parseAuthorizedKey E
        (([0x2c].intercalate os ++ 0x20 :: (word ++ 0x20 :: body)).dropWhile
          fun x => !isBlank x) with
      | .ok (out, comment) => some (out, comment, [])
      | .error _ =>
        match parseAuthorizedKey E (0x20 :: body) with
        | .ok (out, comment) => some (out, comment, os.filter (· ≠ []))
        | .error _ => none := by
  generalize hin : [0x2c].intercalate os ++ 0x20 :: (word ++ 0x20 :: body) = input at hhash ⊢
  have hscan : scanOptions input ([] : Bytes).length ([] : Bytes).length false [] input =
      ([] ++ os.filter (· ≠ []), ([] ++ [0x2c].intercalate os).length) := by
    rw [← hin]
    exact scanOptions_options hne hos rfl (by decide)
  change scanOptions input 0 0 false [] input = (os.filter (· ≠ []), _) at hscan
  have hdrop : (input.drop ([0x2c].intercalate os).length).dropWhile isBlank =
      word ++ 0x20 :: body := by
    rw [← hin, List.drop_left]
    cases word with
    | nil => exact (htype rfl).elim
    | cons x word =>
      have hx : ¬isBlank x = true := by simp [hword x mem_cons_self]
      rw [cons_append, List.dropWhile_cons_of_pos rfl, List.dropWhile_cons_of_neg hx]
  have hbody : (word ++ 0x20 :: body).dropWhile (fun x => !isBlank x) = 0x20 :: body := by
    rw [List.dropWhile_append_of_pos (by simpa using hword)]
    rfl
  have hnil : ¬(input.length = 0 ∨ input.head? = some 0x23) := by
    rw [not_or, ← hin]
    exact ⟨by simp, by rw [hin]; exact hhash⟩
  obtain ⟨y, ys, hfirst⟩ : ∃ y ys, (input.dropWhile fun x => !isBlank x) = y :: ys := by
    apply List.exists_cons_of_ne_nil
    rw [ne_eq, List.dropWhile_eq_nil_iff, ← hin]
    intro h
    exact absurd (h 0x20 (by simp)) (by decide)
  obtain ⟨z, zs, hword⟩ := List.exists_cons_of_ne_nil htype
  unfold keyOnLine
  rw [if_neg hnil, hfirst, hscan]
  simp only [hdrop, nil_append]
  rw [hword, cons_append] at hbody ⊢
  simp only [hbody]

theorem parseAuthorizedKeys_line (hne : line ≠ []) (hlf : 0x0a ∉ line) :
    parseAuthorizedKeys E line = .ok (key, comment, os, []) ↔
      keyOnLine E (trimSpace (line.takeWhile fun x => x != 0x0d)) = some (key, comment, os) := by
  have hx : ∀ x ∈ line, (x != 0x0a) = true := fun x hx => bne_iff_ne.mpr fun h => hlf (h ▸ hx)
  have htake : (line.takeWhile fun x => x != 0x0a) = line := List.takeWhile_eq_self_iff.mpr hx
  have hdrop : (line.dropWhile fun x => x != 0x0a) = [] := List.dropWhile_eq_nil_iff.mpr hx
  have hnil : parseAuthorizedKeys E [] = .error (.text "ssh: no key found") := by
    rw [parseAuthorizedKeys, dif_pos rfl]
  rw [parseAuthorizedKeys, dif_neg hne]
  simp only [htake, hdrop, List.drop_nil]
  cases keyOnLine E (trimSpace (line.takeWhile fun x => x != 0x0d)) with
  | none => simp [hnil]
  | some r => simp [Prod.ext_iff]

/-- The parts of a line; without a comment the blank in front of it is missing too. -/
structure KeyLine where
  options : List Bytes
  key : PublicKey
  base64 : Bytes
  comment : Bytes

namespace KeyLine

def commentField (l : KeyLine) : Bytes := if l.comment = [] then [] else 0x20 :: l.comment

def textWith (l : KeyLine) (tail : Bytes) : Bytes :=
  [0x2c].intercalate l.options ++ 0x20 :: (ascii l.key.type ++ 0x20 :: (l.base64 ++ tail))

def text (l : KeyLine) : Bytes := l.textWith l.commentField

/-- Blanks and commas of the options are inside their closed quotes, and the key is in base64. The
line is one line, no comment line, and trimmed. -/
structure Valid (E : Elliptic) (l : KeyLine) : Prop where
  options_ne : l.options ≠ []
  option_ne : [] ∉ l.options
  quoted : ∀ o ∈ l.options, WellQuoted o
  key : ∃ blob, base64Decode l.base64 = .ok blob ∧ parsePublicKey E blob = .ok l.key
  base64 : ∀ x ∈ l.base64, x ≠ 0x0a ∧ x ≠ 0x0d
  one_line : 0x0a ∉ l.text
  not_comment : l.text.head? ≠ some 0x23
  trimmed : trimSpace l.text = l.text
  comment_trimmed : trimSpace l.comment = l.comment

end KeyLine

theorem not_space_of_base64 (hd : base64Decode s = .ok blob) (hs : ∀ x ∈ s, x ≠ 0x0a ∧ x ≠ 0x0d)
    (hx : x ∈ s) : ∀ w ∈ spaces, x ∉ w := by
  have hf : (s.filter fun x => x != 0x0a && x != 0x0d) = s := by
    rw [List.filter_eq_self]
    intro y hy
    simpa using hs y hy
  have hg : ∃ out, base64Groups s = some out := by
    unfold base64Decode at hd
    rw [hf] at hd
    split at hd
    · rename_i out hout
      exact ⟨out, hout⟩
    · cases hd
  obtain ⟨out, hout⟩ := hg
  have halphabet : ∀ y ∈ 0x3d :: base64Alphabet, ∀ w ∈ spaces, y ∉ w := by decide +kernel
  apply halphabet
  rcases mem_of_base64Groups hout x hx with hx | hx
  · exact List.mem_cons_of_mem _ hx
  · exact hx ▸ mem_cons_self

theorem not_blank_of_not_space (h : ∀ w ∈ spaces, x ∉ w) : isBlank x = false := by
  have h20 := h [0x20] (by decide)
  have h09 := h [0x09] (by decide)
  simp only [List.mem_singleton] at h20 h09
  simp [isBlank, h20, h09]

theorem PublicKey.type_plain (key : PublicKey) :
    ascii key.type ≠ [] ∧ ∀ x ∈ ascii key.type, isBlank x = false ∧ x ≠ 0x0d := by
  have hname : ∀ a : KeyAlgo,
      ascii a.name ≠ [] ∧ ∀ x ∈ ascii a.name, isBlank x = false ∧ x ≠ 0x0d := by
    intro a
    cases a <;> decide +kernel
  have hcert : ∀ a : KeyAlgo,
      ascii a.certName ≠ [] ∧ ∀ x ∈ ascii a.certName, isBlank x = false ∧ x ≠ 0x0d := by
    intro a
    cases a <;> decide +kernel
  cases key with
  | raw key => exact hname key.algo
  | cert c k => exact hcert c.key.algo

theorem length_takeWhile_lt {l : List α} (ha : a ∈ l) (hp : p a = false) :
    (l.takeWhile p).length < l.length := by
  refine lt_of_le_of_ne (List.takeWhile_prefix _).length_le fun he => ?_
  have hall := List.takeWhile_eq_self_iff.mp ((List.takeWhile_prefix _).eq_of_length he)
  rw [hall a ha] at hp
  cases hp

namespace KeyLine

theorem Valid.base64_ne (h : Valid E l) : l.base64 ≠ [] := by
  obtain ⟨blob, hd, hp⟩ := h.key
  intro hnil
  rw [hnil] at hd
  cases hd
  rw [parsePublicKey] at hp
  cases hp

theorem Valid.dropWords_base64 (h : Valid E l) (tail : Bytes) :
    dropWords spaces (l.base64 ++ tail) = l.base64 ++ tail := by
  obtain ⟨blob, hd, -⟩ := h.key
  obtain ⟨x, b, hb⟩ := List.exists_cons_of_ne_nil h.base64_ne
  have hx : ∀ w ∈ spaces, x ∉ w := not_space_of_base64 hd h.base64 (by rw [hb]; simp)
  apply dropWords_eq_self
  intro w hw hne hp
  obtain ⟨y, w, rfl⟩ := List.exists_cons_of_ne_nil hne
  rw [hb, cons_append, List.cons_prefix_cons] at hp
  exact hx _ hw (hp.1 ▸ mem_cons_self)

theorem Valid.exists_trimSpace (h : Valid E l) {front : Bytes}
    (hd : dropWords spaces (front ++ (l.base64 ++ tail)) = front ++ (l.base64 ++ tail)) :
    ∃ tail', tail' <+: tail ∧
      trimSpace (front ++ (l.base64 ++ tail)) = front ++ (l.base64 ++ tail') := by
  obtain ⟨blob, hblob, -⟩ := h.key
  rcases List.eq_nil_or_concat l.base64 with hnil | ⟨b, z, hb⟩
  · exact (h.base64_ne hnil).elim
  rw [List.concat_eq_append] at hb
  have hz : ∀ w ∈ spaces, z ∉ w := not_space_of_base64 hblob h.base64 (by rw [hb]; simp)
  have he : ∀ r, front ++ (l.base64 ++ r) = (front ++ b) ++ z :: r := by
    intro r
    rw [hb]
    simp
  rw [he] at hd ⊢
  obtain ⟨tail', hp, ht⟩ := XCryptoSsh.exists_trimSpace hd hz
  exact ⟨tail', hp, by rw [he, ht]⟩

theorem Valid.parseAuthorizedKey_field (h : Valid E l) (htail : tail = [] ∨ ∃ c, tail = 0x20 :: c) :
    ∃ tail', tail' <+: tail ∧ trimSpace (l.base64 ++ tail) = l.base64 ++ tail' ∧
      parseAuthorizedKey E (0x20 :: (l.base64 ++ tail)) = .ok (l.key, trimSpace tail') := by
  obtain ⟨blob, hblob, hkey⟩ := h.key
  have hd : dropWords spaces ([] ++ (l.base64 ++ tail)) = [] ++ (l.base64 ++ tail) :=
    h.dropWords_base64 tail
  obtain ⟨tail', hp, ht⟩ := h.exists_trimSpace hd
  simp only [nil_append] at ht
  refine ⟨tail', hp, ht, ?_⟩
  have hb : ∀ x ∈ l.base64, (!isBlank x) = true := by
    intro x hx
    rw [not_blank_of_not_space (not_space_of_base64 hblob h.base64 hx), Bool.not_false]
  have hblank : tail' = [] ∨ ∃ c, tail' = 0x20 :: c := by
    rcases htail with rfl | ⟨c, rfl⟩
    · exact .inl (List.prefix_nil.mp hp)
    rcases List.prefix_cons_iff.mp hp with rfl | ⟨t, rfl, -⟩
    · exact .inl rfl
    · exact .inr ⟨t, rfl⟩
  have htake : (l.base64 ++ tail').takeWhile (fun x => !isBlank x) = l.base64 := by
    rw [List.takeWhile_append_of_pos hb]
    rcases hblank with rfl | ⟨c, rfl⟩ <;> simp [isBlank]
  have hdrop : (l.base64 ++ tail').dropWhile (fun x => !isBlank x) = tail' := by
    rw [List.dropWhile_append_of_pos hb]
    rcases hblank with rfl | ⟨c, rfl⟩ <;> simp [isBlank]
  rw [parseAuthorizedKey_eq_ok, trimSpace_blank_cons, ht, htake, hdrop]
  exact ⟨⟨blob, hblob, hkey⟩, rfl⟩

theorem textWith_head (l : KeyLine) (tail tail' : Bytes) :
    (l.textWith tail).head? = (l.textWith tail').head? := by
  unfold textWith
  cases [0x2c].intercalate l.options <;> rfl

theorem Valid.keyOnLine_textWith (h : Valid E l) (htail : tail = [] ∨ ∃ c, tail = 0x20 :: c) :
    ∃ tail', tail' <+: tail ∧ trimSpace (l.base64 ++ tail) = l.base64 ++ tail' ∧
      keyOnLine E (l.textWith tail) =
        match parseAuthorizedKey E ((l.textWith tail).dropWhile fun x => !isBlank x) with
        | .ok (out, comment) => some (out, comment, [])
        | .error _ => some (l.key, trimSpace tail', l.options) := by
  obtain ⟨tail', hp, ht, hkey⟩ := h.parseAuthorizedKey_field htail
  refine ⟨tail', hp, ht, ?_⟩
  have hhash := h.not_comment
  rw [text, l.textWith_head _ tail] at hhash
  have hf : l.options.filter (· ≠ []) = l.options := by
    rw [List.filter_eq_self]
    intro o ho
    exact decide_eq_true fun he => h.option_ne (he ▸ ho)
  unfold textWith at hhash ⊢
  rw [keyOnLine_of_options h.options_ne h.quoted l.key.type_plain.1
    (fun x hx => (l.key.type_plain.2 x hx).1) hhash, hkey, hf]

theorem Valid.no_cr_options (h : Valid E l)
    (hk : keyOnLine E (trimSpace (l.text.takeWhile fun x => x != 0x0d)) =
      some (k, c, l.options)) : 0x0d ∉ [0x2c].intercalate l.options := by
  intro hcr
  have hd := dropWords_of_trimSpace h.trimmed
  have hlen := length_takeWhile_lt (p := fun x => x != 0x0d) hcr rfl
  have htake : (l.text.takeWhile fun x => x != 0x0d) =
      ([0x2c].intercalate l.options).takeWhile fun x => x != 0x0d := by
    rw [text, textWith, List.takeWhile_append, if_neg hlen.ne]
  have htrim := trimSpace_prefix (dropWords_of_begins hd (List.takeWhile_prefix fun x => x != 0x0d))
  obtain ⟨r, hr⟩ : trimSpace (l.text.takeWhile fun x => x != 0x0d) <+:
      [0x2c].intercalate l.options := by
    apply htrim.trans
    rw [htake]
    exact List.takeWhile_prefix _
  apply h.options_ne
  refine keyOnLine_of_quoted ?_ (fun x hx => getLast_trimSpace hx) hk
  apply quotedBlanks_of_append (l := r)
  rw [hr]
  exact quotedBlanks_options h.quoted (by decide)

theorem Valid.takeWhile_text (h : Valid E l) (hcr : 0x0d ∉ [0x2c].intercalate l.options) :
    (l.text.takeWhile fun x => x != 0x0d) =
      l.textWith (l.commentField.takeWhile fun x => x != 0x0d) := by
  have hopt : ∀ x ∈ [0x2c].intercalate l.options, (x != 0x0d) = true :=
    fun x hx => bne_iff_ne.mpr fun he => hcr (he ▸ hx)
  have htype : ∀ x ∈ ascii l.key.type, (x != 0x0d) = true :=
    fun x hx => bne_iff_ne.mpr (l.key.type_plain.2 x hx).2
  have hbase : ∀ x ∈ l.base64, (x != 0x0d) = true := fun x hx => bne_iff_ne.mpr (h.base64 x hx).2
  unfold text textWith
  rw [List.takeWhile_append_of_pos hopt, List.takeWhile_cons_of_pos (by decide),
    List.takeWhile_append_of_pos htype, List.takeWhile_cons_of_pos (by decide),
    List.takeWhile_append_of_pos hbase]

theorem Valid.no_cr_comment (h : Valid E l) (hopt : 0x0d ∉ [0x2c].intercalate l.options)
    (hk : keyOnLine E (trimSpace (l.text.takeWhile fun x => x != 0x0d)) =
      some (k, l.comment, l.options)) : 0x0d ∉ l.commentField := by
  intro hcr
  have hd := dropWords_of_begins (dropWords_of_trimSpace h.trimmed)
    (List.takeWhile_prefix fun x => x != 0x0d)
  rw [h.takeWhile_text hopt] at hd hk
  have hne : l.comment ≠ [] := by
    intro he
    rw [commentField, if_pos he] at hcr
    cases hcr
  rw [commentField, if_neg hne] at hcr hd hk
  rw [List.takeWhile_cons_of_pos (by decide)] at hd hk
  have hcr : 0x0d ∈ l.comment := (List.mem_cons.mp hcr).resolve_left (by decide)
  have hlen := length_takeWhile_lt (p := fun x => x != 0x0d) hcr rfl
  have htail : ∀ tail, l.textWith tail =
      ([0x2c].intercalate l.options ++ 0x20 :: (ascii l.key.type ++ [0x20])) ++
        (l.base64 ++ tail) := by
    intro tail
    simp [textWith]
  rw [htail] at hd hk
  obtain ⟨tail, hp, ht⟩ := h.exists_trimSpace hd
  rw [ht, ← htail] at hk
  have hblank : tail = [] ∨ ∃ c, tail = 0x20 :: c := by
    rcases List.prefix_cons_iff.mp hp with rfl | ⟨c, rfl, -⟩
    · exact .inl rfl
    · exact .inr ⟨c, rfl⟩
  obtain ⟨tail', hp', -, he⟩ := h.keyOnLine_textWith hblank
  rw [he] at hk
  split at hk
  · injection hk with hk
    exact h.options_ne (congrArg (·.2.2) hk).symm
  injection hk with hk
  injection hk with hkey hk
  injection hk with hcomment _
  -- the comment that is read is shorter
  have hle : (trimSpace tail').length < l.comment.length := by
    rcases List.prefix_cons_iff.mp (hp'.trans hp) with rfl | ⟨c, rfl, hc⟩
    · rw [trimSpace_nil]
      exact List.length_pos_iff.mpr hne
    rw [trimSpace_blank_cons]
    have h1 := length_trimSpace_le c
    have h2 := hc.length_le
    omega
  rw [hcomment] at hle
  exact Nat.lt_irrefl _ hle

/-- The lines of which the key, the comment and the options come out as they were written. -/
theorem parseAuthorizedKeys_iff (h : Valid E l) :
    parseAuthorizedKeys E l.text = .ok (l.key, l.comment, l.options, []) ↔
      0x0d ∉ l.text ∧ ¬IsKey E (secondWord l.text) := by
  have hne : l.text ≠ [] := by simp [text, textWith]
  have hfield : l.commentField = [] ∨ ∃ c, l.commentField = 0x20 :: c := by
    unfold commentField
    split
    · exact .inl rfl
    · exact .inr ⟨_, rfl⟩
  rw [parseAuthorizedKeys_line hne h.one_line]
  obtain ⟨tail, hp, ht, he⟩ := h.keyOnLine_textWith hfield
  -- the whole line is trimmed, and so its end is
  have hsuffix : l.base64 ++ l.commentField <:+ l.text := by
    refine ⟨[0x2c].intercalate l.options ++ 0x20 :: (ascii l.key.type ++ [0x20]), ?_⟩
    simp [text, textWith]
  rw [trimSpace_of_suffix h.trimmed hsuffix (h.dropWords_base64 _),
    List.append_cancel_left_eq] at ht
  have hcomment : trimSpace tail = l.comment := by
    rw [← ht]
    unfold commentField
    split
    · rename_i hnil
      rw [hnil, trimSpace_nil]
    · rw [trimSpace_blank_cons]
      exact h.comment_trimmed
  rw [hcomment] at he
  change keyOnLine E l.text = match parseAuthorizedKey E (l.text.dropWhile fun x => !isBlank x) with
    | .ok (out, comment) => some (out, comment, [])
    | .error _ => some (l.key, l.comment, l.options) at he
  constructor
  · intro hk
    have hopt := h.no_cr_options hk
    have hcr : ∀ x ∈ l.commentField, (x != 0x0d) = true :=
      fun x hx => bne_iff_ne.mpr fun heq => h.no_cr_comment hopt hk (heq ▸ hx)
    have htake := h.takeWhile_text hopt
    rw [List.takeWhile_eq_self_iff.mpr hcr] at htake
    change (l.text.takeWhile fun x => x != 0x0d) = l.text at htake
    refine ⟨fun hmem => ?_, fun hkey => ?_⟩
    · exact absurd (List.takeWhile_eq_self_iff.mp htake _ hmem) (by decide)
    obtain ⟨⟨out, c⟩, hr⟩ := isKey_secondWord_iff.mp hkey
    rw [htake, h.trimmed, he, hr] at hk
    injection hk with hk
    exact h.options_ne (congrArg (·.2.2) hk).symm
  · rintro ⟨hcr, hkey⟩
    have hall : ∀ x ∈ l.text, (x != 0x0d) = true :=
      fun x hx => bne_iff_ne.mpr fun heq => hcr (heq ▸ hx)
    rw [List.takeWhile_eq_self_iff.mpr hall, h.trimmed, he]
    cases hr : parseAuthorizedKey E (l.text.dropWhile fun x => !isBlank x) with
    | ok r => exact (hkey (isKey_secondWord_iff.mpr ⟨r, hr⟩)).elim
    | error e => rfl

def wireKey (x : UInt8) : Bytes :=
  encodeString (ascii "ssh-ed25519") ++ encodeString (List.replicate 32 x)

def commandLine (command : Bytes) : KeyLine where
  options := [ascii "no-pty", ascii "command=\"" ++ command ++ ascii "\""]
  key := .raw (.ed25519 (List.replicate 32 2))
  base64 := base64Encode (wireKey 2)
  comment := ascii "user"

def reads (input : Bytes) (x : UInt8) (comment : Bytes) (options : List Bytes) : Bool :=
  match parseAuthorizedKeys PublicKey.onePoint input with
  | .ok (.raw key, comment', options', rest) =>
    decide (key = .ed25519 (List.replicate 32 x) ∧ comment' = comment ∧ options' = options ∧
      rest = [])
  | _ => false

theorem eq_of_reads (h : reads input x c os = true) :
    parseAuthorizedKeys PublicKey.onePoint input =
      .ok (.raw (.ed25519 (List.replicate 32 x)), c, os, []) := by
  unfold reads at h
  split at h
  · rename_i heq
    obtain ⟨rfl, rfl, rfl, rfl⟩ := of_decide_eq_true h
    exact heq
  · cases h

def isTwos : PublicKey → Bool
  | .raw key => decide (key = .ed25519 (List.replicate 32 2))
  | _ => false

theorem valid_commandLine (hquoted : ∀ o ∈ (commandLine command).options, WellQuoted o)
    (hline : 0x0a ∉ (commandLine command).text)
    (htrim : trimSpace (commandLine command).text = (commandLine command).text) :
    Valid PublicKey.onePoint (commandLine command) := by
  have hparse : PublicKey.parsesTo isTwos (wireKey 2) = true := by decide +kernel
  obtain ⟨key, hkey, htest⟩ := PublicKey.exists_of_parsesTo hparse
  have hdecode : base64Decode (base64Encode (wireKey 2)) = .ok (wireKey 2) := by decide +kernel
  refine ⟨by rintro ⟨⟩, ?_, hquoted, ⟨wireKey 2, hdecode, ?_⟩, ?_, hline, ?_, htrim, ?_⟩
  · simp [commandLine, ascii]
  · unfold isTwos at htest
    split at htest
    · rw [hkey, of_decide_eq_true htest]
      rfl
    · cases htest
  · change ∀ x ∈ base64Encode (wireKey 2), x ≠ 0x0a ∧ x ≠ 0x0d
    decide +kernel
  · rintro ⟨⟩
  · change trimSpace (ascii "user") = ascii "user"
    decide +kernel

theorem parseAuthorizedKeys_command :
    parseAuthorizedKeys PublicKey.onePoint (commandLine (ascii "echo hi")).text =
      .ok ((commandLine (ascii "echo hi")).key, ascii "user",
        [ascii "no-pty", ascii "command=\"echo hi\""], []) := by
  have hvalid : Valid PublicKey.onePoint (commandLine (ascii "echo hi")) :=
    valid_commandLine (by decide +kernel) (by decide +kernel) (by decide +kernel)
  have hword : base64Decode (secondWord (commandLine (ascii "echo hi")).text) =
      .error "illegal base64 data at input byte 2" := by decide +kernel
  refine (parseAuthorizedKeys_iff hvalid).mpr ⟨by decide +kernel, ?_⟩
  rintro ⟨blob, key, hblob, -⟩
  cases hword.symm.trans hblob

/-- A key inside the quotes is taken for the key of the line, and the options are lost. -/
theorem parseAuthorizedKeys_smuggled :
    let l := commandLine (ascii "echo " ++ base64Encode (wireKey 1) ++ ascii " hi")
    Valid PublicKey.onePoint l ∧ parseAuthorizedKeys PublicKey.onePoint l.text =
      .ok (.raw (.ed25519 (List.replicate 32 1)),
        ascii "hi\" ssh-ed25519 " ++ l.base64 ++ ascii " user", [], []) := by
  intro l
  refine ⟨valid_commandLine (by decide +kernel) (by decide +kernel) (by decide +kernel), ?_⟩
  exact eq_of_reads (by decide +kernel)

end KeyLine
end XCryptoSsh
