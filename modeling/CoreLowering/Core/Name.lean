import CoreLowering.Text.Composed

/-!
# Names of variables

A name in an emitted program has ASCII letters, digits, underscores and
quotes only, is not empty, and starts with neither a digit nor a quote.
`Name.clean` turns any text into such a name: the text is composed first, so
that a letter with an accent counts as one character, every character that is
not allowed becomes an underscore, and a letter is put in front where needed.
-/

namespace CoreLowering.Name

/-- Whether a character may stand in a name. -/
def isAllowed (c : Char) : Bool :=
  c.isAlpha || c.isDigit || c = '_' || c = '\''

/-- Whether a character may not be the first of a name. -/
def isInner (c : Char) : Bool :=
  c = '\'' || c.isDigit

def cleanChars (cs : List Char) : List Char :=
  match cs.map fun c => if isAllowed c then c else '_' with
  | [] => ['v']
  | c :: rest => if isInner c then 'v' :: c :: rest else c :: rest

/-- A name for a text that is brought to a normal form first. -/
def cleanAfter (normalize : String → String) (s : String) : String :=
  String.ofList (cleanChars (normalize s).toList)

def clean (s : String) : String := cleanAfter compose s

variable {cs : List Char}

theorem isAllowed_of_mem_cleanChars : ∀ c ∈ cleanChars cs, isAllowed c = true := by
  have hmap : ∀ c ∈ cs.map fun c => if isAllowed c then c else '_', isAllowed c = true := by
    intro c hc
    obtain ⟨d, -, rfl⟩ := List.mem_map.1 hc
    split
    · assumption
    · rfl
  rw [cleanChars]
  split
  · simp [isAllowed]
  · next heq =>
    rw [heq] at hmap
    split
    · exact List.forall_mem_cons.2 ⟨rfl, hmap⟩
    · exact hmap

theorem cleanChars_eq_cons (cs : List Char) :
    ∃ c rest, cleanChars cs = c :: rest ∧ isInner c = false := by
  rw [cleanChars]
  split
  · exact ⟨'v', [], rfl, rfl⟩
  · next c rest _ =>
    split
    · exact ⟨'v', c :: rest, rfl, rfl⟩
    · exact ⟨c, rest, rfl, by simpa using ‹¬isInner c = true›⟩

end CoreLowering.Name
