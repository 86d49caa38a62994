import CoreLowering.Core.Name
import CoreLowering.Core.Term.Layout

/-!
# Line breaks

A legible term has clean names, known kinds and well-formed constants.  Its
text stands on one line and starts with no blank, so that a layout of it,
whatever the width and however columns are counted, differs from the text by
line breaks only.

Main statement: `Term.layout_changes_breaks_only`.
-/

namespace CoreLowering

variable {x : String} {n : Nat} {c : Char}

/-! ## Legible terms -/

/-- A name that cleaning gives. -/
def Name.IsClean (x : String) : Prop := ∃ s, Name.clean s = x

theorem Name.IsClean.allowed (h : Name.IsClean x) : ∀ c ∈ x.toList, Name.isAllowed c = true := by
  obtain ⟨s, rfl⟩ := h
  rw [Name.clean, Name.cleanAfter, String.toList_ofList]
  exact Name.isAllowed_of_mem_cleanChars

theorem Name.IsClean.ne_nil (h : Name.IsClean x) : x.toList ≠ [] := by
  obtain ⟨s, rfl⟩ := h
  obtain ⟨c, rest, hcs, -⟩ := Name.cleanChars_eq_cons (compose s).toList
  rw [Name.clean, Name.cleanAfter, String.toList_ofList, hcs]
  simp

namespace Term

mutual

/-- Whether the names of a term are clean, its kinds known and its constants
well formed. -/
def Legible : Term → Prop
  | var x => Name.IsClean x
  | lam x b => Name.IsClean x ∧ b.Legible
  | apply f a => f.Legible ∧ a.Legible
  | force b => b.Legible
  | delay b => b.Legible
  | con c => c.WellFormed
  | builtin _ => True
  | error => True
  | constr _ fs => LegibleAll fs
  | case s bs => s.Legible ∧ LegibleAll bs
  | unknown _ => False
  | missing => False

def LegibleAll : List Term → Prop
  | [] => True
  | t :: ts => t.Legible ∧ LegibleAll ts

end

end Term

/-! ## Texts on one line -/

theorem Name.IsClean.newline_not_mem (h : Name.IsClean x) : '\n' ∉ x.toList :=
  fun hmem => absurd (h.allowed _ hmem) (by decide)

@[simp]
theorem newline_not_mem_toDigits (n : Nat) : '\n' ∉ Nat.toDigits 10 n := fun h =>
  absurd (Nat.isDigit_of_mem_toDigits (by decide) (by decide) h) (by decide)

@[simp]
theorem newline_not_mem_repr (n : Int) : '\n' ∉ n.repr.toList := by
  rw [Int.repr_eq_if]
  split <;> simp

/-- Whether a character is a digit of a hexadecimal numeral. -/
def Hex.isDigit (c : Char) : Bool := (value? c).isSome

theorem Hex.isDigit_digit (h : n < 16) : Hex.isDigit (Hex.digit n) = true := by
  revert n
  decide

theorem Hex.mem_lastDigits {w : Nat} (h : c ∈ Hex.lastDigits w n) : Hex.isDigit c = true := by
  induction w generalizing n with
  | zero => simp [Hex.lastDigits] at h
  | succ w ih =>
    rcases List.mem_append.1 h with h | h
    · exact ih h
    · rw [List.mem_singleton.1 h]
      exact Hex.isDigit_digit (Nat.mod_lt _ (by decide))

@[simp]
theorem newline_not_mem_padded (w n : Nat) : '\n' ∉ (Hex.padded w n).toList := by
  intro h
  rw [Hex.padded, String.toList_ofList] at h
  exact absurd (Hex.mem_lastDigits h) (by decide)

theorem Hex.isDigit_of_mem_encode {b : Bytes} (h : c ∈ (Hex.encode b).toList) :
    Hex.isDigit c = true := by
  rw [Hex.encode, String.toList_ofList] at h
  obtain ⟨byte, -, hc⟩ := List.mem_flatMap.1 h
  have hbyte := byte.toNat_lt
  simp only [Hex.ofByte, List.mem_cons, List.not_mem_nil, or_false] at hc
  rcases hc with hc | hc
  · exact hc ▸ Hex.isDigit_digit (by omega)
  · exact hc ▸ Hex.isDigit_digit (by omega)

@[simp]
theorem newline_not_mem_encode (b : Bytes) : '\n' ∉ (Hex.encode b).toList :=
  fun h => absurd (Hex.isDigit_of_mem_encode h) (by decide)

theorem Quoted.controlLetter?_ne {l : Char} (h : controlLetter? c = some l) : l ≠ '\n' := by
  rw [controlLetter?] at h
  split at h <;> cases h <;> decide

theorem Quoted.newline_not_mem_escape (c : Char) : '\n' ∉ (escape c).toList := by
  rw [escape]
  split
  · next l hl => simp [(controlLetter?_ne hl).symm]
  · next hnone =>
    have hc : '\n' ≠ c := by
      rintro rfl
      cases hnone
    dsimp only
    repeat' split
    all_goals simp [hc]

@[simp]
theorem newline_not_mem_quote (s : String) : '\n' ∉ (quote s).toList := by
  simp [quote, String.toList_join, Quoted.newline_not_mem_escape]

@[simp]
theorem Builtin.newline_not_mem_name (f : Builtin) : '\n' ∉ f.name.toList := by
  cases f <;> simp [name, info]

@[simp]
theorem ConstType.newline_not_mem_text (t : ConstType) : '\n' ∉ t.text.toList := by
  induction t <;> simp_all [text]

mutual

theorem Data.newline_not_mem_text : ∀ d : Data, '\n' ∉ d.text.toList
  | .constr tag fields => by
    simp [Data.text, Data.newline_not_mem_textAll fields]
  | .map entries => by simp [Data.text, Data.newline_not_mem_textEntries entries]
  | .list items => by simp [Data.text, Data.newline_not_mem_textAll items]
  | .int n => by simp [Data.text]
  | .bytes b => by simp [Data.text]
  | .unknown _ => by simp [Data.text]

theorem Data.newline_not_mem_textAll : ∀ xs : List Data, '\n' ∉ (Data.textAll xs).toList
  | [] => by simp [Data.textAll]
  | [x] => by simp [Data.textAll, x.newline_not_mem_text]
  | x :: y :: xs => by
    simp [Data.textAll, x.newline_not_mem_text, Data.newline_not_mem_textAll (y :: xs)]

theorem Data.newline_not_mem_textEntries :
    ∀ es : List (Data × Data), '\n' ∉ (Data.textEntries es).toList
  | [] => by simp [Data.textEntries]
  | [(k, v)] => by simp [Data.textEntries, k.newline_not_mem_text, v.newline_not_mem_text]
  | (k, v) :: e :: es => by
    simp [Data.textEntries, k.newline_not_mem_text, v.newline_not_mem_text,
      Data.newline_not_mem_textEntries (e :: es)]

end

mutual

theorem Constant.newline_not_mem_valueText : ∀ c : Constant, '\n' ∉ c.valueText.toList
  | .integer n => by simp [Constant.valueText]
  | .byteString b => by simp [Constant.valueText]
  | .string s => by simp [Constant.valueText]
  | .unit => by simp [Constant.valueText]
  | .bool true => by simp [Constant.valueText]
  | .bool false => by simp [Constant.valueText]
  | .data d => by simp [Constant.valueText, d.newline_not_mem_text]
  | .noData => by simp [Constant.valueText]
  | .list _ xs => by simp [Constant.valueText, Constant.newline_not_mem_valueTexts xs]
  | .array _ xs => by simp [Constant.valueText, Constant.newline_not_mem_valueTexts xs]
  | .pair _ _ [a, b] => by
    simp [Constant.valueText, a.newline_not_mem_valueText, b.newline_not_mem_valueText]
  | .pair _ _ [] => by simp [Constant.valueText]
  | .pair _ _ [_] => by simp [Constant.valueText]
  | .pair _ _ (_ :: _ :: _ :: _) => by simp [Constant.valueText]
  | .unknown _ => by simp [Constant.valueText]

theorem Constant.newline_not_mem_valueTexts :
    ∀ xs : List Constant, '\n' ∉ (Constant.valueTexts xs).toList
  | [] => by simp [Constant.valueTexts]
  | [x] => by simp [Constant.valueTexts, x.newline_not_mem_valueText]
  | x :: y :: xs => by
    simp [Constant.valueTexts, x.newline_not_mem_valueText,
      Constant.newline_not_mem_valueTexts (y :: xs)]

end

namespace Term

mutual

theorem newline_not_mem_textIn (inChain : Bool) :
    ∀ t : Term, t.Legible → '\n' ∉ (t.textIn inChain).toList
  | var x, h => h.newline_not_mem
  | lam x b, h => by simp [textIn, h.1.newline_not_mem, b.newline_not_mem_textIn false h.2]
  | apply f a, h => by
    have hf := f.newline_not_mem_textIn true h.1
    have ha := a.newline_not_mem_textIn false h.2
    cases inChain <;> simp [textIn, hf, ha]
  | force b, h => by simp [textIn, b.newline_not_mem_textIn false h]
  | delay b, h => by simp [textIn, b.newline_not_mem_textIn false h]
  | con c, _ => by simp [textIn, Constant.text, c.newline_not_mem_valueText]
  | builtin f, _ => by simp [textIn]
  | error, _ => by simp [textIn]
  | constr tag fs, h => by simp [textIn, newline_not_mem_textsAfter fs h]
  | case s bs, h => by
    simp [textIn, s.newline_not_mem_textIn false h.1, newline_not_mem_textsAfter bs h.2]
  | unknown _, h => h.elim
  | missing, h => h.elim

theorem newline_not_mem_textsAfter :
    ∀ ts : List Term, LegibleAll ts → '\n' ∉ (textsAfter ts).toList
  | [], _ => by simp [textsAfter]
  | t :: ts, h => by
    simp [textsAfter, t.newline_not_mem_textIn false h.1, newline_not_mem_textsAfter ts h.2]

end

end Term

/-! ## Joining lines -/

/-- The characters with each line break and the blanks after it replaced by
one blank. -/
def joinLines : List Char → List Char
  | [] => []
  | c :: cs =>
    if c = '\n' then ' ' :: joinLines (cs.dropWhile (· = ' ')) else c :: joinLines cs
termination_by cs => cs.length
decreasing_by
  · exact Nat.lt_succ_of_le (List.dropWhile_suffix _).length_le
  · exact Nat.lt_succ_self _

/-- The text with each line break and the blanks after it replaced by one
blank. -/
def unbroken (s : String) : String := String.ofList (joinLines s.toList)

/-- The text `s`, whatever stands after it, becomes `t` when lines are joined. -/
def Joins (s t : String) : Prop :=
  ∀ rest, joinLines (s.toList ++ rest) = t.toList ++ joinLines rest

/-- Whether a character only stands after a part of a text. -/
def isStop (c : Char) : Bool := [' ', ',', ')', ']'].contains c

theorem isStop_eq_false {p : Char → Bool} (h : p c = true)
    (hp : [' ', ',', ')', ']'].all (!p ·) = true) : isStop c = false := by
  rw [isStop, Bool.eq_false_iff, ne_eq, List.contains_iff_mem]
  intro hmem
  simpa [h] using List.all_eq_true.1 hp c hmem

@[simp]
theorem isStop_openParen : isStop '(' = false := rfl

@[simp]
theorem isStop_openBracket : isStop '[' = false := rfl

/-- A text that starts with a character of its own. -/
def StartsVisible (s : String) : Prop := ∃ c cs, s.toList = c :: cs ∧ isStop c = false

theorem StartsVisible.of_word {s : String} (hne : s.toList ≠ [])
    (h : ∀ c ∈ s.toList, isStop c = false) : StartsVisible s := by
  obtain ⟨c, cs, heq⟩ := List.exists_cons_of_ne_nil hne
  exact ⟨c, cs, heq, h c (heq ▸ List.mem_cons_self)⟩

namespace Joins

variable {s t u v : String}

theorem of_not_mem (h : '\n' ∉ s.toList) : Joins s s := by
  intro rest
  generalize s.toList = cs at h
  induction cs with
  | nil => rfl
  | cons c cs ih =>
    rw [List.mem_cons, not_or] at h
    rw [List.cons_append, joinLines, if_neg (Ne.symm h.1), ih h.2, List.cons_append]

theorem append (h : Joins s t) (h' : Joins u v) : Joins (s ++ u) (t ++ v) := by
  intro rest
  rw [String.toList_append, String.toList_append, List.append_assoc, h, h', List.append_assoc]

/-- A line break stands for one blank. -/
theorem newLine (h : Joins s t) (indent : Nat) (hu : StartsVisible u) (h' : Joins u v) :
    Joins (s ++ Term.newLine indent ++ u) (t ++ " " ++ v) := by
  have hbreak : Joins (Term.newLine indent ++ u) (" " ++ v) := by
    obtain ⟨c, cs, heq, hc⟩ := hu
    intro rest
    have hdrop : (List.replicate indent ' ' ++ (u.toList ++ rest)).dropWhile (· = ' ') =
        u.toList ++ rest := by
      have hblank : c ≠ ' ' := fun hblank => by cases hblank ▸ hc
      rw [List.dropWhile_append_of_pos (by simp), heq]
      simp [hblank]
    simp [Term.newLine, joinLines, hdrop, h' rest]
  rw [String.append_assoc, String.append_assoc]
  exact h.append hbreak

end Joins

namespace Term

variable {t : Term} {s : String}

/-- The layout `s` of a term is its text `t` with lines broken. -/
structure Breaks (s t : String) : Prop where
  visible : StartsVisible s
  joins : Joins s t

theorem text_startsVisible : ∀ t : Term, t.Legible → StartsVisible t.text
  | var x, h => .of_word h.ne_nil fun c hc => isStop_eq_false (h.allowed c hc) (by decide)
  | con c, _ => by simp [StartsVisible, text, textIn, Constant.text]
  | lam x b, _ | apply f a, _ | force b, _ | delay b, _ | builtin f, _ | error, _
  | constr tag fs, _ | case s bs, _ => by simp [StartsVisible, text, textIn]
  | unknown _, h | missing, h => h.elim

theorem Breaks.text (h : t.Legible) : Breaks t.text t.text :=
  ⟨text_startsVisible t h, .of_not_mem (newline_not_mem_textIn false t h)⟩

/-- A term that fits stays as it is. -/
theorem Breaks.fit (h : t.Legible) (hs : Breaks s t.text) (fits : Bool) :
    Breaks (if fits then t.text else s) t.text := by
  split
  · exact .text h
  · exact hs

/-- A bracket closes the parts of a term. -/
theorem Breaks.close {t : String} (hs : StartsVisible (s ++ ")")) (h : Joins s t) :
    Breaks (s ++ ")") (t ++ ")") :=
  ⟨hs, h.append (.of_not_mem (by decide))⟩

variable (fits : Nat → String → Bool)

mutual

theorem layoutIn_breaks (inChain : Bool) (indent : Nat) :
    ∀ t : Term, t.Legible → Breaks (layoutIn fits inChain indent t) (t.textIn inChain)
  | apply f a, h => by
    have hf := layoutIn_breaks true indent f h.1
    have ha := layoutIn_breaks false (partIndent indent) a h.2
    have hparts := hf.joins.newLine (partIndent indent) ha.visible ha.joins
    cases inChain with
    | true =>
      obtain ⟨c, cs, heq, hc⟩ := hf.visible
      exact ⟨⟨c, _, by simp [layoutIn, heq]; rfl, hc⟩, by simpa [layoutIn, textIn] using hparts⟩
    | false =>
      have hopen : Joins "[" "[" := .of_not_mem (by decide)
      have hclose : Joins "]" "]" := .of_not_mem (by decide)
      rw [layoutIn]
      exact .fit h ⟨by simp [StartsVisible], (hopen.append hparts).append hclose⟩ _
  | lam x b, h => by
    have hb := layoutIn_breaks false (partIndent (if inChain then indent + 1 else indent)) b h.2
    have hhead : Joins ("(lam " ++ x) ("(lam " ++ x) :=
      .of_not_mem (by simp [h.1.newline_not_mem])
    rw [layoutIn]
    exact .fit h (.close (by simp [StartsVisible]) (hhead.newLine _ hb.visible hb.joins)) _
  | force b, h => by
    have hb := layoutIn_breaks false (partIndent (if inChain then indent + 1 else indent)) b h
    have hhead : Joins "(force" "(force" := .of_not_mem (by decide)
    rw [layoutIn]
    exact .fit h (.close (by simp [StartsVisible]) (hhead.newLine _ hb.visible hb.joins)) _
  | delay b, h => by
    have hb := layoutIn_breaks false (partIndent (if inChain then indent + 1 else indent)) b h
    have hhead : Joins "(delay" "(delay" := .of_not_mem (by decide)
    rw [layoutIn]
    exact .fit h (.close (by simp [StartsVisible]) (hhead.newLine _ hb.visible hb.joins)) _
  | constr tag fs, h => by
    have hhead : Joins ("(constr " ++ toString tag.toNat) ("(constr " ++ toString tag.toNat) :=
      .of_not_mem (by simp)
    rw [layoutIn]
    exact .fit h (.close (by simp [StartsVisible]) (layoutParts_joins _ fs h hhead)) _
  | case s bs, h => by
    have hs := layoutIn_breaks false (partIndent (if inChain then indent + 1 else indent)) s h.1
    have hhead : Joins "(case" "(case" := .of_not_mem (by decide)
    rw [layoutIn]
    exact .fit h (.close (by simp [StartsVisible])
      (layoutParts_joins _ bs h.2 (hhead.newLine _ hs.visible hs.joins))) _
  | var x, h => .text (t := var x) h
  | con c, h => .text (t := con c) h
  | builtin f, h => .text (t := builtin f) h
  | error, h => .text (t := error) h
  | unknown _, h | missing, h => h.elim

theorem layoutParts_joins (indent : Nat) :
    ∀ ts : List Term, LegibleAll ts → ∀ {s t : String}, Joins s t →
      Joins (s ++ layoutParts fits indent ts) (t ++ textsAfter ts)
  | [], _, _, _, hst => by simpa [layoutParts, textsAfter] using hst
  | t :: ts, h, _, _, hst => by
    have ht := layoutIn_breaks false indent t h.1
    have hts := layoutParts_joins indent ts h.2 (hst.newLine indent ht.visible ht.joins)
    rw [layoutParts, textsAfter]
    simpa only [String.append_assoc] using hts

end

theorem unbroken_layoutIn (h : t.Legible) : unbroken (layoutIn fits false 0 t) = t.text := by
  have hjoins := (layoutIn_breaks fits false 0 t h).joins []
  rw [List.append_nil, joinLines, List.append_nil] at hjoins
  rw [unbroken, hjoins, String.ofList_toList, text]

/-- Whatever the width and however the columns of texts are counted, joining
the lines of a layout gives the text of the term. -/
theorem layout_changes_breaks_only (columns : String → Int) (width : Int) {t : Term}
    (h : t.Legible) :
    unbroken (t.layoutBy columns width) = t.text ∧ unbroken (t.layout width) = t.text :=
  ⟨unbroken_layoutIn _ h, unbroken_layoutIn _ h⟩

/-- A term that is broken wherever it can be. -/
theorem layout_changes_breaks_only_narrow :
    let t := apply (lam "x" (var "x")) (con (.string "\n"))
    t.layoutBy (fun _ => 9) 1 = "[(lam x\n  x)\n  (con string \"\\n\")]" ∧
      unbroken (t.layoutBy (fun _ => 9) 1) = t.text := by
  intro t
  have hx : Name.IsClean "x" := ⟨"x", by decide⟩
  have ht : t.Legible := by simp [t, Legible, hx, Constant.WellFormed, Constant.wellFormed]
  exact ⟨by decide, (layout_changes_breaks_only _ _ ht).1⟩

end Term

end CoreLowering
