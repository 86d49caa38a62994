import CoreLowering.Proofs.Core.Constants
import CoreLowering.Proofs.Printing.Breaks

/-!
# Texts are unambiguous

No two legible terms have the same text.  More is shown of the text of every
part, be it a name, a numeral, a quoted text, a type, a value or a term: where
a character follows that can only stand after a part, one can tell from the
characters where the part ends and what it is.

Main statement: `Term.texts_are_unambiguous`.
-/

namespace CoreLowering

variable {α : Type} {r r' : List Char} {x : α} {c : Char} {n w : Nat} {cs : List Char} {s : String}
  {t : Term} {u : Term}

/-! ## Parts of texts -/

/-- Nothing follows, or a character that only stands after a part. -/
def Stops : List Char → Prop
  | [] => True
  | c :: _ => isStop c = true

/-- A bracket that closes follows. -/
inductive Closes : List Char → Prop where
  | paren {r : List Char} : Closes (')' :: r)
  | bracket {r : List Char} : Closes (']' :: r)

/-- A closing bracket stops a word. -/
theorem Closes.stops (h : Closes r) : Stops r := by
  cases h <;> rfl

/-- No other text of something with the property `P` can be taken for that of
`x`. -/
def ReadsAs (f : α → String) (P : α → Prop) (x : α) : Prop :=
  ∀ ⦃y⦄, P y → ∀ ⦃r r'⦄, (f x).toList ++ r = (f y).toList ++ r' → Stops r → Stops r' →
    x = y ∧ r = r'

/-- A part before a character that only stands after parts. -/
theorem ReadsAs.upTo {f : α → String} {P : α → Prop} {y : α} (hx : ReadsAs f P x) (hy : P y)
    (h : (f x).toList ++ c :: r = (f y).toList ++ c :: r') (hc : isStop c = true) :
    x = y ∧ r = r' := by
  obtain ⟨hxy, hrest⟩ := hx hy h hc hc
  exact ⟨hxy, (List.cons.inj hrest).2⟩

/-- Words without characters that stand after parts. -/
theorem word_append_inj {a b : List Char} (ha : ∀ c ∈ a, isStop c = false)
    (hb : ∀ c ∈ b, isStop c = false) (h : a ++ r = b ++ r') (hr : Stops r) (hr' : Stops r') :
    a = b ∧ r = r' := by
  have hword : ∀ {a r : List Char}, (∀ c ∈ a, isStop c = false) → Stops r →
      (a ++ r).takeWhile (!isStop ·) = a := by
    intro a r ha hr
    rw [List.takeWhile_append_of_pos (by simpa using ha)]
    cases r with
    | nil => simp
    | cons c r => simp [show isStop c = true from hr]
  have hab : a = b := by rw [← hword ha hr, h, hword hb hr']
  exact ⟨hab, List.append_cancel_left (hab ▸ h)⟩

/-! ## Numerals, bytes and names -/

/-- No digit stops a word. -/
theorem isStop_toDigits (h : c ∈ Nat.toDigits 10 n) : isStop c = false :=
  isStop_eq_false (Nat.isDigit_of_mem_toDigits (by decide) (by decide) h) (by decide)

/-- Up to where it stops, a numeral spells one number. -/
theorem toDigits_append_inj {m : Nat} (h : Nat.toDigits 10 m ++ r = Nat.toDigits 10 n ++ r')
    (hr : Stops r) (hr' : Stops r') : m = n ∧ r = r' := by
  obtain ⟨hd, hrest⟩ :=
    word_append_inj (fun _ => isStop_toDigits) (fun _ => isStop_toDigits) h hr hr'
  refine ⟨?_, hrest⟩
  rw [← Nat.ofDigitChars_ten_toDigits (n := m), hd, Nat.ofDigitChars_ten_toDigits]

/-- Digits do not begin with a sign. -/
theorem toDigits_ne_minus : Nat.toDigits 10 n ++ r ≠ '-' :: cs := by
  intro h
  obtain ⟨c, ds, hd⟩ := List.exists_cons_of_ne_nil (Nat.toDigits_ne_nil (n := n) (b := 10))
  rw [hd, List.cons_append, List.cons.injEq] at h
  have hdigit := Nat.isDigit_of_mem_toDigits (b := 10) (n := n) (c := c) (by decide) (by decide)
    (hd ▸ List.mem_cons_self)
  rw [h.1] at hdigit
  cases hdigit

/-- A numeral with a sign spells one integer. -/
theorem repr_append_inj {m n : Int} (h : m.repr.toList ++ r = n.repr.toList ++ r')
    (hr : Stops r) (hr' : Stops r') : m = n ∧ r = r' := by
  rw [Int.repr_eq_if, Int.repr_eq_if] at h
  split at h <;> split at h <;> simp at h
  · obtain ⟨hmn, hrest⟩ := toDigits_append_inj h hr hr'
    exact ⟨by omega, hrest⟩
  · exact absurd h toDigits_ne_minus
  · exact absurd h.symm toDigits_ne_minus
  · obtain ⟨hmn, hrest⟩ := toDigits_append_inj h hr hr'
    exact ⟨by omega, hrest⟩

namespace Hex

/-- Hexadecimal digits are told apart. -/
theorem value?_digit (h : n < 16) : value? (digit n) = some n := by
  revert n
  decide

/-- Whether a number has no more than so many digits. -/
def Fits : (width n : Nat) → Prop
  | 0, n => n = 0
  | width + 1, n => Fits width (n / 16)

theorem length_lastDigits (w n : Nat) : (lastDigits w n).length = w := by
  induction w generalizing n with
  | zero => rfl
  | succ w ih => rw [lastDigits, List.length_append, ih, List.length_singleton]

/-- The number of a numeral. -/
def number (ds : List Char) : Nat := ds.foldl (fun n d => 16 * n + (value? d).getD 0) 0

/-- Digits that a number fits into spell it. -/
theorem number_lastDigits (h : Fits w n) : number (lastDigits w n) = n := by
  induction w generalizing n with
  | zero => exact h.symm
  | succ w ih =>
    have hfirst : number (lastDigits w (n / 16)) = n / 16 := ih h
    rw [number] at hfirst ⊢
    rw [lastDigits, List.foldl_append, hfirst, List.foldl_cons, List.foldl_nil,
      value?_digit (Nat.mod_lt n (by decide)), Option.getD_some, Nat.div_add_mod]

/-- Bytes are read back from their digits. -/
theorem decodeChars_flatMap (b : Bytes) : decodeChars (b.flatMap ofByte) = some b := by
  induction b with
  | nil => rfl
  | cons x b ih =>
    have hhigh : x.toNat / 16 < 16 := by have := x.toNat_lt; omega
    have hlow : x.toNat % 16 < 16 := Nat.mod_lt _ (by decide)
    rw [List.flatMap_cons, ofByte, List.cons_append, List.cons_append, List.nil_append,
      decodeChars, value?_digit hhigh, value?_digit hlow, ih]
    simp only [Option.bind_eq_bind, Option.bind_some, Nat.div_add_mod, UInt8.ofNat_toNat,
      Option.pure_def]

/-- Hexadecimal text spells one byte string. -/
theorem encode_append_inj {a b : Bytes} (h : (encode a).toList ++ r = (encode b).toList ++ r')
    (hr : Stops r) (hr' : Stops r') : a = b ∧ r = r' := by
  have hstop : ∀ b : Bytes, ∀ c ∈ (encode b).toList, isStop c = false :=
    fun b c hc => isStop_eq_false (isDigit_of_mem_encode hc) (by decide)
  obtain ⟨hab, hrest⟩ := word_append_inj (hstop a) (hstop b) h hr hr'
  rw [encode, encode, String.toList_ofList, String.toList_ofList] at hab
  refine ⟨Option.some.inj ?_, hrest⟩
  rw [← decodeChars_flatMap, hab, decodeChars_flatMap]

end Hex

/-- A clean name ends where it stops. -/
theorem Name.IsClean.append_inj {x y : String} (hx : Name.IsClean x) (hy : Name.IsClean y)
    (h : x.toList ++ r = y.toList ++ r') (hr : Stops r) (hr' : Stops r') : x = y ∧ r = r' := by
  obtain ⟨hxy, hrest⟩ := word_append_inj (fun c hc => isStop_eq_false (hx.allowed c hc) (by decide))
    (fun c hc => isStop_eq_false (hy.allowed c hc) (by decide)) h hr hr'
  exact ⟨String.toList_inj.1 hxy, hrest⟩

/-! ## Quoted texts -/

namespace Quoted

/-- The number of the character that a letter after a backslash stands for. -/
def lettered : Char → Nat
  | 'a' => 0x07
  | 'b' => 0x08
  | 'f' => 0x0C
  | 'n' => 0x0A
  | 'r' => 0x0D
  | 't' => 0x09
  | 'v' => 0x0B
  | l => l.toNat

/-- The digits after the letter of a numeral. -/
def digits? : Char → Option Nat
  | 'x' => some 2
  | 'u' => some 4
  | 'U' => some 8
  | _ => none

/-- The character that stands at the start of a quoted text. -/
def unescape : List Char → Option (Char × List Char)
  | '\\' :: l :: cs =>
    match digits? l with
    | none => some (.ofNat (lettered l), cs)
    | some w => some (.ofNat (Hex.number (cs.take w)), cs.drop w)
  | '"' :: _ => none
  | c :: cs => some (c, cs)
  | [] => none

/-- An escape by a letter is read back. -/
theorem unescape_letter {l : Char} (hl : lettered l = c.toNat) (hnone : digits? l = none) :
    unescape ('\\' :: l :: r) = some (c, r) := by
  simp only [unescape, hnone, hl, Char.ofNat_toNat]

/-- An escape by a number is read back. -/
theorem unescape_numeral {l : Char} (hw : digits? l = some w) (h : Hex.Fits w c.toNat) :
    unescape ('\\' :: l :: (Hex.lastDigits w c.toNat ++ r)) = some (c, r) := by
  have hlen := Hex.length_lastDigits w c.toNat
  simp only [unescape, hw, List.take_left' hlen, List.drop_left' hlen, Hex.number_lastDigits h,
    Char.ofNat_toNat]

/-- Every character is read back from between quotes. -/
theorem unescape_escape (c : Char) : unescape ((escape c).toList ++ r) = some (c, r) := by
  rw [escape]
  split
  · next l hl =>
    rw [controlLetter?] at hl
    have hletter : lettered l = c.toNat ∧ digits? l = none := by
      split at hl <;> cases hl <;> exact ⟨Eq.symm ‹_›, rfl⟩
    simpa using unescape_letter hletter.1 hletter.2
  · dsimp only
    have hlt : c.toNat < 0x110000 := by
      rcases c.valid with h | ⟨-, h⟩
      · exact Nat.lt_trans h (by decide)
      · exact h
    split
    · next hc => rcases hc with rfl | rfl <;> simpa using unescape_letter rfl rfl
    · next hc =>
      rw [not_or] at hc
      split
      · simp [unescape, hc]
      · split
        · simpa [Hex.padded] using unescape_numeral (l := 'x') rfl (by simp only [Hex.Fits]; omega)
        · split
          · simpa [Hex.padded] using
              unescape_numeral (l := 'u') rfl (by simp only [Hex.Fits]; omega)
          · simpa [Hex.padded] using
              unescape_numeral (l := 'U') rfl (by simp only [Hex.Fits]; omega)

/-- Characters between quotes are told apart up to the closing quote. -/
theorem escape_append_inj {ds : List Char} (h : (cs.map escape).flatMap String.toList ++ '"' :: r =
      (ds.map escape).flatMap String.toList ++ '"' :: r') : cs = ds ∧ r = r' := by
  have hend : ∀ r, unescape ('"' :: r) = none := fun _ => rfl
  induction cs generalizing ds with
  | nil => cases ds with
    | nil => exact ⟨rfl, (List.cons.inj h).2⟩
    | cons d ds => simpa [hend, unescape_escape] using congrArg unescape h
  | cons c cs ih => cases ds with
    | nil => simpa [hend, unescape_escape] using congrArg unescape h
    | cons d ds =>
      have hread := congrArg unescape h
      simp only [List.map_cons, List.flatMap_cons, List.append_assoc, unescape_escape,
        Option.some.injEq, Prod.mk.injEq] at hread
      obtain ⟨rfl, hcs⟩ := hread
      exact (ih hcs).imp_left (congrArg (c :: ·))

end Quoted

/-- A quoted text spells one text. -/
theorem quote_append_inj {t : String} (h : (quote s).toList ++ r = (quote t).toList ++ r') :
    s = t ∧ r = r' := by
  have hquote : ∀ s r, (quote s).toList ++ r =
      '"' :: ((s.toList.map Quoted.escape).flatMap String.toList ++ '"' :: r) := fun s r => by
    simp [quote, String.toList_join]
  rw [hquote, hquote, List.cons.injEq] at h
  obtain ⟨hst, hrest⟩ := Quoted.escape_append_inj h.2
  exact ⟨String.toList_inj.1 hst, hrest⟩

/-! ## Lists of parts -/

/-- The texts of parts, each after a separator. -/
def after (sep : String) (f : α → String) : List α → String
  | [] => ""
  | x :: xs => sep ++ f x ++ after sep f xs

/-- The texts of parts with a separator between them. -/
def between (sep : String) (f : α → String) : List α → String
  | [] => ""
  | x :: xs => f x ++ after sep f xs

section Lists

variable {sep : String} {f : α → String} {P : α → Prop} {xs ys : List α}

theorem after_append : after sep f (xs ++ ys) = after sep f xs ++ after sep f ys := by
  induction xs with
  | nil => simp [after]
  | cons x xs ih => simp [after, ih, String.append_assoc]

theorem between_concat (h : xs ≠ []) :
    between sep f (xs ++ [x]) = between sep f xs ++ sep ++ f x := by
  obtain ⟨y, ys, rfl⟩ := List.exists_cons_of_ne_nil h
  simp [between, after, after_append, String.append_assoc]

/-- A function that puts a separator between texts is `between`. -/
theorem eq_between {g : List α → String} (hnil : g [] = "") (hsingle : ∀ x, g [x] = f x)
    (hcons : ∀ x y xs, g (x :: y :: xs) = f x ++ sep ++ g (y :: xs)) (xs : List α) :
    g xs = between sep f xs := by
  cases xs with
  | nil => exact hnil
  | cons x xs =>
    induction xs generalizing x with
    | nil => rw [hsingle, between, after, String.append_empty]
    | cons y xs ih => simp only [hcons, ih, between, after, String.append_assoc]

/-- A separator starts with a blank or a comma. -/
def Separates (sep : String) : Prop := ∃ c cs, sep.toList = c :: cs ∧ (c = ' ' ∨ c = ',')

/-- A separator stops what is before it, and so does the end. -/
theorem Separates.stops (hsep : Separates sep) (hr : Closes r) :
    Stops ((after sep f xs).toList ++ r) := by
  obtain ⟨c, cs, heq, hc⟩ := hsep
  cases xs with
  | nil => simpa [after] using hr.stops
  | cons x xs =>
    simp only [after, String.toList_append, heq, List.cons_append]
    rcases hc with rfl | rfl <;> rfl

/-- A separator is no closing bracket. -/
theorem Separates.ne_closes (hsep : Separates sep) (hr : Closes r) : sep.toList ++ r' ≠ r := by
  obtain ⟨c, cs, heq, hc⟩ := hsep
  rw [heq]
  rintro rfl
  cases hr <;> simp at hc

theorem StartsVisible.ne_closes (hs : StartsVisible s) (hr : Closes r) : s.toList ++ r' ≠ r := by
  obtain ⟨c, cs, heq, hc⟩ := hs
  rw [heq]
  rintro rfl
  cases hr <;> cases hc

/-- Texts after separators are told apart if each of them is. -/
theorem after_append_inj (hsep : Separates sep) (hx : ∀ x ∈ xs, ReadsAs f P x)
    (hy : ∀ y ∈ ys, P y) (h : (after sep f xs).toList ++ r = (after sep f ys).toList ++ r')
    (hr : Closes r) (hr' : Closes r') : xs = ys ∧ r = r' := by
  induction xs generalizing ys with
  | nil => cases ys with
    | nil => exact ⟨rfl, h⟩
    | cons y ys =>
      simp only [after, String.toList_append, List.append_assoc] at h
      exact absurd h.symm (hsep.ne_closes hr)
  | cons x xs ih => cases ys with
    | nil =>
      simp only [after, String.toList_append, List.append_assoc] at h
      exact absurd h (hsep.ne_closes hr')
    | cons y ys =>
      rw [List.forall_mem_cons] at hx hy
      simp only [after, String.toList_append, List.append_assoc] at h
      obtain ⟨rfl, htail⟩ :=
        hx.1 hy.1 (List.append_cancel_left h) (hsep.stops hr) (hsep.stops hr')
      exact (ih hx.2 hy.2 htail).imp_left (congrArg (x :: ·))

/-- Texts between separators are told apart, and so is whether there are any. -/
theorem between_append_inj (hsep : Separates sep) (hv : ∀ x, P x → StartsVisible (f x))
    (hP : ∀ x ∈ xs, P x) (hx : ∀ x ∈ xs, ReadsAs f P x) (hy : ∀ y ∈ ys, P y)
    (h : (between sep f xs).toList ++ r = (between sep f ys).toList ++ r') (hr : Closes r)
    (hr' : Closes r') : xs = ys ∧ r = r' := by
  cases xs with
  | nil => cases ys with
    | nil => exact ⟨rfl, h⟩
    | cons y ys =>
      simp only [between, String.toList_append, List.append_assoc] at h
      exact absurd h.symm ((hv y (hy y List.mem_cons_self)).ne_closes hr)
  | cons x xs => cases ys with
    | nil =>
      simp only [between, String.toList_append, List.append_assoc] at h
      exact absurd h ((hv x (hP x List.mem_cons_self)).ne_closes hr')
    | cons y ys =>
      refine after_append_inj hsep hx hy ?_ hr hr'
      simpa only [between, after, String.toList_append, List.append_assoc,
        List.append_cancel_left_eq] using h

/-- The same up to a closing bracket. -/
theorem between_upTo (hsep : Separates sep) (hv : ∀ x, P x → StartsVisible (f x))
    (hP : ∀ x ∈ xs, P x) (hx : ∀ x ∈ xs, ReadsAs f P x) (hy : ∀ y ∈ ys, P y)
    (h : (between sep f xs).toList ++ c :: r = (between sep f ys).toList ++ c :: r')
    (hc : ∀ {r}, Closes (c :: r)) : xs = ys ∧ r = r' := by
  obtain ⟨hxy, hrest⟩ := between_append_inj hsep hv hP hx hy h hc hc
  exact ⟨hxy, (List.cons.inj hrest).2⟩

end Lists

theorem separates_blank : Separates " " := ⟨' ', [], rfl, .inl rfl⟩

theorem separates_comma : Separates ", " := ⟨',', [' '], rfl, .inr rfl⟩

/-! ## Types and values -/

/-- The text of a type is the text of one type only. -/
theorem ConstType.reads (t : ConstType) : ReadsAs text (valid · = true) t := by
  induction t with
  | integer | byteString | string | unit | bool | data =>
    intro u hu r r' h _ _
    cases u <;> simp [text, valid] at h hu ⊢
    exact h
  | list e ih =>
    intro u hu r r' h _ _
    cases u with
    | list f =>
      simp [text] at h
      exact (ih.upTo (y := f) hu h rfl).imp_left (congrArg list)
    | unknown => cases hu
    | _ => simp [text] at h
  | array e ih =>
    intro u hu r r' h _ _
    cases u with
    | array f =>
      simp [text] at h
      exact (ih.upTo (y := f) hu h rfl).imp_left (congrArg array)
    | unknown => cases hu
    | _ => simp [text] at h
  | pair a b iha ihb =>
    intro u hu r r' h _ _
    cases u with
    | pair c d =>
      simp [text] at h
      rw [valid, Bool.and_eq_true] at hu
      obtain ⟨rfl, hsnd⟩ := iha.upTo hu.1 h rfl
      exact (ihb.upTo hu.2 hsnd rfl).imp_left (congrArg (pair a))
    | unknown => cases hu
    | _ => simp [text] at h
  | unknown k =>
    intro u hu r r' h _ _
    cases u <;> simp [text, valid] at h hu

namespace Data

/-- The text of an entry of a map. -/
def entryText (e : Data × Data) : String := "(" ++ e.1.text ++ ", " ++ e.2.text ++ ")"

theorem textAll_eq (xs : List Data) : textAll xs = between ", " text xs :=
  eq_between rfl (fun _ => rfl) (fun _ _ _ => rfl) xs

theorem textEntries_eq (es : List (Data × Data)) : textEntries es = between ", " entryText es := by
  refine eq_between rfl (fun _ => rfl) (fun x y xs => ?_) es
  simp [textEntries, ← String.toList_inj]

/-- The text of a value starts with a letter. -/
theorem text_startsVisible (d : Data) (h : d.valid = true) : StartsVisible d.text := by
  cases d with
  | unknown => cases h
  | _ => simp [StartsVisible, text, isStop]

/-- A list of values in brackets. -/
theorem textAll_append_inj {xs ys : List Data} (hx : ∀ x ∈ xs, ReadsAs text (valid · = true) x)
    (hxs : validAll xs = true) (hys : validAll ys = true)
    (h : (textAll xs).toList ++ ']' :: r = (textAll ys).toList ++ ']' :: r') :
    xs = ys ∧ r = r' := by
  rw [textAll_eq, textAll_eq] at h
  exact between_upTo separates_comma text_startsVisible (validAll_iff.1 hxs) hx
    (validAll_iff.1 hys) h .bracket

mutual

/-- **Structured values are told apart by their texts.** -/
theorem reads : ∀ d : Data, d.valid = true → ReadsAs text (valid · = true) d
  | .constr t fs, hd, e, he, r, r', h, _, _ => by
    cases e with
    | constr u gs =>
      simp [text] at h
      obtain ⟨htag, hfields⟩ := toDigits_append_inj h rfl rfl
      simp at hfields
      rw [UInt64.toNat_inj.1 htag]
      exact (textAll_append_inj (readsAll fs hd) hd he hfields).imp_left (congrArg (constr u))
    | unknown => cases he
    | _ => simp [text] at h
  | .map es, hd, e, he, r, r', h, _, _ => by
    cases e with
    | map fs =>
      simp [text, textEntries_eq] at h
      refine (between_upTo separates_comma (fun e _ => ?_) (validEntries_iff.1 hd)
        (readsEntries es hd) (validEntries_iff.1 he) h .bracket).imp_left (congrArg map)
      simp [StartsVisible, entryText]
    | unknown => cases he
    | _ => simp [text] at h
  | .list xs, hd, e, he, r, r', h, _, _ => by
    cases e with
    | list ys =>
      simp [text] at h
      exact (textAll_append_inj (readsAll xs hd) hd he h).imp_left (congrArg list)
    | unknown => cases he
    | _ => simp [text] at h
  | .int n, _, e, he, r, r', h, hr, hr' => by
    cases e with
    | int m =>
      simp [text] at h
      exact (repr_append_inj h hr hr').imp_left (congrArg int)
    | unknown => cases he
    | _ => simp [text] at h
  | .bytes b, _, e, he, r, r', h, hr, hr' => by
    cases e with
    | bytes c =>
      simp [text] at h
      exact (Hex.encode_append_inj h hr hr').imp_left (congrArg bytes)
    | unknown => cases he
    | _ => simp [text] at h
  | .unknown _, hd, _, _, _, _, _, _, _ => by cases hd

theorem readsAll : ∀ xs : List Data, validAll xs = true →
    ∀ x ∈ xs, ReadsAs text (valid · = true) x
  | [], _ => List.forall_mem_nil _
  | x :: xs, h => by
    rw [validAll, Bool.and_eq_true] at h
    exact List.forall_mem_cons.2 ⟨reads x h.1, readsAll xs h.2⟩

theorem readsEntries : ∀ es : List (Data × Data), validEntries es = true →
    ∀ e ∈ es, ReadsAs entryText (fun e => e.1.valid = true ∧ e.2.valid = true) e
  | [], _ => List.forall_mem_nil _
  | (k, v) :: es, h => by
    simp only [validEntries, Bool.and_eq_true] at h
    refine List.forall_mem_cons.2 ⟨?_, readsEntries es h.2⟩
    rintro ⟨l, w⟩ hlw r r' heq _ _
    simp [entryText] at heq
    obtain ⟨rfl, hvalue⟩ := (reads k h.1.1).upTo hlw.1 heq rfl
    exact ((reads v h.1.2).upTo hlw.2 (List.cons.inj hvalue).2 rfl).imp_left (congrArg (k, ·))

end

end Data

namespace Constant

theorem valueTexts_eq (xs : List Constant) : valueTexts xs = between ", " valueText xs :=
  eq_between rfl (fun _ => rfl) (fun _ _ _ => rfl) xs

/-- A well-formed constant of the type `t`. -/
def Of (t : ConstType) (c : Constant) : Prop := c.type = t ∧ c.wellFormed = true

/-- The text of a constant starts with a character of its own. -/
theorem valueText_startsVisible {t : ConstType} (c : Constant) (h : Of t c) :
    StartsVisible c.valueText := by
  cases c with
  | integer n =>
    rw [valueText, Int.toString_eq_repr, Int.repr_eq_if]
    split
    · exact .of_word (by simp) fun c hc => isStop_toDigits (by simpa using hc)
    · exact ⟨'-', _, by simp; rfl, rfl⟩
  | byteString b => exact ⟨'#', _, by simp [valueText]; rfl, rfl⟩
  | string s => exact ⟨'"', _, by simp [valueText, quote]; rfl, rfl⟩
  | bool b => cases b <;> simp [StartsVisible, valueText] <;> rfl
  | pair a b xs =>
    obtain ⟨x, y, rfl, -⟩ := items_of_pair h.2
    simp [StartsVisible, valueText]
  | unit | data | list | array => simp [StartsVisible, valueText]
  | unknown | noData => cases h.2

/-- A list of constants in brackets. -/
theorem valueTexts_append_inj {e : ConstType} {xs ys : List Constant}
    (hx : ∀ x ∈ xs, ReadsAs valueText (Of e) x) (hxs : (list e xs).wellFormed = true)
    (hys : (list e ys).wellFormed = true)
    (h : (valueTexts xs).toList ++ ']' :: r = (valueTexts ys).toList ++ ']' :: r') :
    xs = ys ∧ r = r' := by
  rw [valueTexts_eq, valueTexts_eq] at h
  exact between_upTo separates_comma valueText_startsVisible (wellFormed_list_iff.1 hxs).2 hx
    (wellFormed_list_iff.1 hys).2 h .bracket

mutual

/-- **Constants of one type are told apart by their texts.** -/
theorem reads : ∀ (c : Constant) {t : ConstType}, Of t c → ReadsAs valueText (Of t) c
  | integer n, _, ⟨rfl, _⟩, d, hd, r, r', h, hr, hr' => by
    cases d with
    | integer m =>
      simp [valueText] at h
      exact (repr_append_inj h hr hr').imp_left (congrArg integer)
    | _ => cases hd.1
  | byteString b, _, ⟨rfl, _⟩, d, hd, r, r', h, hr, hr' => by
    cases d with
    | byteString c =>
      simp [valueText] at h
      exact (Hex.encode_append_inj h hr hr').imp_left (congrArg byteString)
    | _ => cases hd.1
  | string s, _, ⟨rfl, _⟩, d, hd, r, r', h, _, _ => by
    cases d with
    | string t => exact (quote_append_inj h).imp_left (congrArg string)
    | _ => cases hd.1
  | unit, _, ⟨rfl, _⟩, d, hd, r, r', h, _, _ => by
    cases d with
    | unit => simpa [valueText] using h
    | _ => cases hd.1
  | bool b, _, ⟨rfl, _⟩, d, hd, r, r', h, _, _ => by
    cases d with
    | bool c => cases b <;> cases c <;> simp [valueText] at h ⊢ <;> exact h
    | _ => cases hd.1
  | data a, _, ⟨rfl, ha⟩, d, hd, r, r', h, _, _ => by
    cases d with
    | data b =>
      simp [valueText] at h
      exact ((Data.reads a ha).upTo hd.2 h rfl).imp_left (congrArg data)
    | noData => cases hd.2
    | _ => cases hd.1
  | list e xs, _, ⟨rfl, hc⟩, d, hd, r, r', h, _, _ => by
    cases d with
    | list f ys =>
      cases hd.1
      simp [valueText] at h
      exact (valueTexts_append_inj (readsAll e xs hc) hc hd.2 h).imp_left (congrArg (list e))
    | _ => cases hd.1
  | array e xs, _, ⟨rfl, hc⟩, d, hd, r, r', h, _, _ => by
    cases d with
    | array f ys =>
      cases hd.1
      simp [valueText] at h
      exact (valueTexts_append_inj (readsAll e xs hc) hc hd.2 h).imp_left (congrArg (array e))
    | _ => cases hd.1
  | pair a b [x, y], _, ⟨rfl, hc⟩, d, hd, r, r', h, _, _ => by
    cases d with
    | pair a' b' zs =>
      cases hd.1
      obtain ⟨_, _, hxy, hx, hy⟩ := items_of_pair hc
      obtain ⟨z, w, rfl, hz, hw⟩ := items_of_pair hd.2
      cases hxy
      simp [valueText] at h
      obtain ⟨rfl, hsnd⟩ := (reads x hx).upTo hz h rfl
      obtain ⟨rfl, hrest⟩ := (reads y hy).upTo hw (List.cons.inj hsnd).2 rfl
      exact ⟨rfl, hrest⟩
    | _ => cases hd.1
  | pair _ _ [], _, hc, _, _, _, _, _, _, _ | pair _ _ [_], _, hc, _, _, _, _, _, _, _
  | pair _ _ (_ :: _ :: _ :: _), _, hc, _, _, _, _, _, _, _
  | noData, _, hc, _, _, _, _, _, _, _ | unknown _, _, hc, _, _, _, _, _, _, _ => by cases hc.2

theorem readsAll (e : ConstType) : ∀ xs : List Constant, (list e xs).wellFormed = true →
    ∀ x ∈ xs, ReadsAs valueText (Of e) x
  | [], _ => List.forall_mem_nil _
  | x :: xs, h => by
    rw [wellFormed_list_iff, List.forall_mem_cons] at h
    exact List.forall_mem_cons.2
      ⟨reads x h.2.1, readsAll e xs (wellFormed_list_iff.2 ⟨h.1, h.2.2⟩)⟩

end

/-- A constant is shown with its type, so that types may differ. -/
theorem text_append_inj {c d : Constant} (hc : c.WellFormed) (hd : d.WellFormed)
    (h : c.text.toList ++ r = d.text.toList ++ r') : c = d ∧ r = r' := by
  simp [text] at h
  obtain ⟨htype, hvalue⟩ := c.type.reads.upTo (valid_type hd) h rfl
  exact (reads c ⟨htype, hc⟩).upTo ⟨rfl, hd⟩ hvalue rfl

end Constant

/-! ## Builtins -/

namespace Builtin

variable {f : Builtin}

/-- Names of builtins are made of the characters of names. -/
theorem allowed_of_mem_name (hf : f.isKnown = true) :
    ∀ c ∈ f.name.toList, Name.isAllowed c = true := by
  refine List.all_eq_true.1 ?_
  cases f with
  | unknown => cases hf
  | _ => decide

/-- A builtin is known by its name. -/
theorem ofName?_name (hf : f.isKnown = true) : ofName? f.name = some f := by
  cases f with
  | unknown => cases hf
  | _ => rfl

theorem eq_unknown (hf : ¬ f.isKnown = true) : ∃ code, f = unknown code := by
  cases f with
  | unknown code => exact ⟨code, rfl⟩
  | _ => exact absurd rfl hf

/-- A name is followed by a bracket; the number of an unknown builtin stands
in brackets of its own. -/
theorem name_append_inj {g : Builtin}
    (h : f.name.toList ++ ')' :: r = g.name.toList ++ ')' :: r') : f = g ∧ r = r' := by
  have hunknown : ∀ (code : UInt8) (r : List Char), (unknown code).name.toList ++ ')' :: r =
      ("builtin(".toList ++ Nat.toDigits 10 code.toNat) ++ ')' :: ')' :: r := by
    simp [name, info]
  have hword : ∀ code : UInt8, ∀ c ∈ "builtin(".toList ++ Nat.toDigits 10 code.toNat,
      isStop c = false := fun code c hc => by
    rcases List.mem_append.1 hc with hc | hc
    · simpa using List.all_eq_true.1 (by decide : "builtin(".toList.all (!isStop ·) = true) c hc
    · exact isStop_toDigits hc
  have hknown : ∀ {f : Builtin}, f.isKnown = true → ∀ c ∈ f.name.toList, isStop c = false :=
    fun hf c hc => isStop_eq_false (allowed_of_mem_name hf c hc) (by decide)
  have hne : ∀ {f : Builtin} {ds : List Char}, f.isKnown = true →
      f.name.toList ≠ "builtin(".toList ++ ds := fun hf heq =>
    absurd (allowed_of_mem_name hf '(' (by simp [heq])) (by decide)
  by_cases hf : f.isKnown = true <;> by_cases hg : g.isKnown = true
  · obtain ⟨hname, hrest⟩ := word_append_inj (hknown hf) (hknown hg) h rfl rfl
    have hsome := ofName?_name hf
    rw [String.toList_inj.1 hname, ofName?_name hg] at hsome
    exact ⟨(Option.some.inj hsome).symm, (List.cons.inj hrest).2⟩
  · obtain ⟨code, rfl⟩ := eq_unknown hg
    rw [hunknown] at h
    exact absurd (word_append_inj (hknown hf) (hword code) h rfl rfl).1 (hne hf)
  · obtain ⟨code, rfl⟩ := eq_unknown hf
    rw [hunknown] at h
    exact absurd (word_append_inj (hword code) (hknown hg) h rfl rfl).1.symm (hne hg)
  · obtain ⟨code, rfl⟩ := eq_unknown hf
    obtain ⟨code', rfl⟩ := eq_unknown hg
    rw [hunknown, hunknown, List.append_assoc, List.append_assoc] at h
    obtain ⟨hcode, hrest⟩ := toDigits_append_inj (List.append_cancel_left h) rfl rfl
    rw [UInt8.toNat_inj.1 hcode]
    exact ⟨rfl, (List.cons.inj (List.cons.inj hrest).2).2⟩

end Builtin

/-! ## Terms -/

namespace Term

/-- The form of a term, by the characters its text starts with. -/
def formOf : List Char → Nat
  | [] => missing.ctorIdx
  | c :: cs =>
    if Name.isAllowed c then (var "").ctorIdx
    else if c = '[' then (apply missing missing).ctorIdx
    else match cs with
      | 'l' :: _ => (lam "" missing).ctorIdx
      | 'f' :: _ => (force missing).ctorIdx
      | 'd' :: _ => (delay missing).ctorIdx
      | 'b' :: _ => (builtin .addInteger).ctorIdx
      | 'c' :: 'a' :: _ => (case missing []).ctorIdx
      | 'c' :: 'o' :: 'n' :: ' ' :: _ => (con .unit).ctorIdx
      | 'c' :: _ => (constr 0 []).ctorIdx
      | _ => error.ctorIdx

/-- The first characters of a text give away the form of the term. -/
theorem formOf_text (h : t.Legible) : formOf (t.text.toList ++ r) = t.ctorIdx := by
  have hparen : Name.isAllowed '(' = false := by decide
  have hbracket : Name.isAllowed '[' = false := by decide
  cases t with
  | var x =>
    obtain ⟨c, cs, heq⟩ := List.exists_cons_of_ne_nil (Name.IsClean.ne_nil h)
    have hc : Name.isAllowed c = true := Name.IsClean.allowed h c (heq ▸ List.mem_cons_self)
    simp [text, textIn, heq, formOf, hc]
    rfl
  | unknown | missing => exact h.elim
  | _ => simp [text, textIn, Constant.text, formOf, hparen, hbracket] <;> rfl

/-- Terms that begin with the same text are of the same form. -/
theorem ctorIdx_eq (ht : t.Legible) (hu : u.Legible)
    (h : t.text.toList ++ r = u.text.toList ++ r') : t.ctorIdx = u.ctorIdx := by
  rw [← formOf_text ht, h, formOf_text hu]

/-- The function and the arguments of a chain of applications. -/
def spine : Term → List Term
  | apply f a => spine f ++ [a]
  | t => [t]

theorem spine_ne_nil (t : Term) : spine t ≠ [] := by
  cases t <;> simp [spine]

/-- A chain is longer by its last argument, or a single term. -/
@[elab_as_elim]
theorem spine_induction {motive : Term → Prop} (t : Term)
    (apply : ∀ f a, motive f → motive (apply f a))
    (single : ∀ t, spine t = [t] → textIn true t = text t → motive t) : motive t := by
  induction t using spine.induct with
  | case1 f a ih => exact apply f a ih
  | case2 t ht =>
    cases t with
    | apply f a => exact absurd rfl (ht f a)
    | _ => exact single _ rfl rfl

/-- A term is put together from its spine in one way. -/
theorem spine_inj (h : spine t = spine u) : t = u := by
  induction t using spine_induction generalizing u with
  | apply f a ih =>
    cases u using spine_induction with
    | apply g b =>
      obtain ⟨hfn, harg⟩ := List.append_inj' h rfl
      rw [ih hfn, List.singleton_inj.1 harg]
    | single u hu => simp [hu, spine, List.append_eq_singleton_iff, spine_ne_nil] at h
  | single t ht =>
    cases u using spine_induction with
    | apply g b => simp [ht, spine, List.singleton_eq_append_iff, spine_ne_nil] at h
    | single u hu =>
      rw [ht, hu] at h
      exact List.singleton_inj.1 h

/-- Within an application, the texts of the spine stand side by side. -/
theorem textIn_true (t : Term) : textIn true t = between " " text (spine t) := by
  induction t using spine_induction with
  | apply f a ih =>
    rw [spine, between_concat (spine_ne_nil f), ← ih]
    rfl
  | single t ht htext => rw [ht, htext, between, after, String.append_empty]

theorem textsAfter_eq (ts : List Term) : textsAfter ts = after " " text ts := by
  induction ts with
  | nil => rfl
  | cons t ts ih => rw [textsAfter, after, ih, text]

theorem legibleAll_iff {ts : List Term} : LegibleAll ts ↔ ∀ t ∈ ts, t.Legible := by
  induction ts with
  | nil => simp [LegibleAll]
  | cons t ts ih => simp [LegibleAll, ih]

theorem Legible.spine (h : t.Legible) : ∀ x ∈ t.spine, x.Legible := by
  induction t using spine_induction with
  | apply f a ih =>
    rw [Term.spine, List.forall_mem_append]
    exact ⟨ih h.1, List.forall_mem_singleton.2 h.2⟩
  | single t ht =>
    rw [ht]
    exact List.forall_mem_singleton.2 h

/-- A term and the parts of its chain of applications. -/
structure Reads (t : Term) : Prop where
  self : ReadsAs text Legible t
  parts : ∀ x ∈ t.spine, ReadsAs text Legible x

theorem Reads.single (ht : t.spine = [t]) (h : ReadsAs text Legible t) : t.Reads :=
  ⟨h, by simpa [ht] using h⟩

/-- An application is told apart by the texts of its spine. -/
theorem Reads.apply {f a : Term} (ht : (apply f a).Legible) (hf : f.Reads) (ha : a.Reads) :
    (apply f a).Reads := by
  have hparts : ∀ x ∈ (f.apply a).spine, ReadsAs text Legible x :=
    List.forall_mem_append.2 ⟨hf.parts, List.forall_mem_singleton.2 ha.self⟩
  have htext : ∀ (f a : Term) (r : List Char), (f.apply a).text.toList ++ r =
      '[' :: ((between " " text (f.apply a).spine).toList ++ ']' :: r) := fun f a r => by
    rw [← textIn_true]
    simp [text, textIn]
  refine ⟨fun u hu r r' h _ _ => ?_, hparts⟩
  cases u with
  | apply g b =>
    rw [htext, htext, List.cons.injEq] at h
    exact (between_upTo separates_blank text_startsVisible ht.spine hparts hu.spine h.2
      .bracket).imp_left spine_inj
  | _ => cases ctorIdx_eq ht hu h

mutual

/-- **Terms are told apart by their texts.** -/
theorem reads : ∀ t : Term, t.Legible → t.Reads
  | var x, ht => .single rfl fun u hu r r' h hr hr' => by
    cases u with
    | var y =>
      exact (Name.IsClean.append_inj ht hu h hr hr').imp_left (congrArg var)
    | _ => cases ctorIdx_eq ht hu h
  | lam x b, ht => .single rfl fun u hu r r' h hr hr' => by
    cases u with
    | lam y c =>
      simp [text, textIn] at h
      obtain ⟨rfl, hbody⟩ := ht.1.append_inj hu.1 h rfl rfl
      exact ((reads b ht.2).self.upTo hu.2 (List.cons.inj hbody).2 rfl).imp_left
        (congrArg (lam x))
    | _ => cases ctorIdx_eq ht hu h
  | apply f a, ht => .apply ht (reads f ht.1) (reads a ht.2)
  | force b, ht => .single rfl fun u hu r r' h hr hr' => by
    cases u with
    | force c =>
      simp [text, textIn] at h
      exact ((reads b ht).self.upTo (y := c) hu h rfl).imp_left (congrArg force)
    | _ => cases ctorIdx_eq ht hu h
  | delay b, ht => .single rfl fun u hu r r' h hr hr' => by
    cases u with
    | delay c =>
      simp [text, textIn] at h
      exact ((reads b ht).self.upTo (y := c) hu h rfl).imp_left (congrArg delay)
    | _ => cases ctorIdx_eq ht hu h
  | con c, ht => .single rfl fun u hu r r' h hr hr' => by
    cases u with
    | con d => exact (Constant.text_append_inj ht hu h).imp_left (congrArg con)
    | _ => cases ctorIdx_eq ht hu h
  | builtin f, ht => .single rfl fun u hu r r' h hr hr' => by
    cases u with
    | builtin g =>
      simp [text, textIn] at h
      exact (Builtin.name_append_inj h).imp_left (congrArg builtin)
    | _ => cases ctorIdx_eq ht hu h
  | error, ht => .single rfl fun u hu r r' h hr hr' => by
    cases u with
    | error => exact ⟨rfl, List.append_cancel_left h⟩
    | _ => cases ctorIdx_eq ht hu h
  | constr tag fs, ht => .single rfl fun u hu r r' h hr hr' => by
    cases u with
    | constr tag' gs =>
      simp [text, textIn, textsAfter_eq] at h
      obtain ⟨htag, hfields⟩ :=
        toDigits_append_inj h (separates_blank.stops .paren) (separates_blank.stops .paren)
      obtain ⟨rfl, hrest⟩ := after_append_inj separates_blank (readsAll fs ht)
        (legibleAll_iff.1 hu) hfields .paren .paren
      rw [UInt64.toNat_inj.1 htag]
      exact ⟨rfl, (List.cons.inj hrest).2⟩
    | _ => cases ctorIdx_eq ht hu h
  | case s bs, ht => .single rfl fun u hu r r' h hr hr' => by
    cases u with
    | case s' bs' =>
      simp [text, textIn, textsAfter_eq] at h
      obtain ⟨rfl, hbranches⟩ := (reads s ht.1).self hu.1 h
        (separates_blank.stops .paren) (separates_blank.stops .paren)
      obtain ⟨rfl, hrest⟩ := after_append_inj separates_blank (readsAll bs ht.2)
        (legibleAll_iff.1 hu.2) hbranches .paren .paren
      exact ⟨rfl, (List.cons.inj hrest).2⟩
    | _ => cases ctorIdx_eq ht hu h
  | unknown _, ht | missing, ht => ht.elim

theorem readsAll : ∀ ts : List Term, LegibleAll ts → ∀ t ∈ ts, ReadsAs text Legible t
  | [], _ => List.forall_mem_nil _
  | t :: ts, h => List.forall_mem_cons.2 ⟨(reads t h.1).self, readsAll ts h.2⟩

end

/-- Legible terms with the same text are the same. -/
theorem texts_are_unambiguous {t u : Term} (ht : t.Legible) (hu : u.Legible)
    (h : t.text = u.text) : t = u := by
  have hchars : t.text.toList ++ [] = u.text.toList ++ [] := by rw [h]
  exact ((reads t ht).self hu hchars trivial trivial).1

/-- A chain of applications and its function with all arguments at once. -/
theorem texts_are_unambiguous_chain :
    let t := apply (apply (var "f") error) (con (.string "\n"))
    let u := applyAll (var "f") [error, con (.string "\n")]
    t.text = "[f (error) (con string \"\\n\")]" ∧ t = u := by
  intro t u
  have hf : Name.IsClean "f" := ⟨"f", by decide⟩
  have ht : t.Legible := ⟨⟨hf, trivial⟩, rfl⟩
  have hu : u.Legible := ⟨⟨hf, trivial⟩, rfl⟩
  exact ⟨by decide, texts_are_unambiguous ht hu rfl⟩

end Term

end CoreLowering
