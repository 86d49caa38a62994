import CoreLowering.Interchange.Read
import CoreLowering.Proofs.Interchange.Messages
import CoreLowering.Proofs.Text.Utf8

/-!
# Reading what was written, record by record

A record is written as the entries of its fields, and those that hold
nothing are left out.  Reading starts with a record that holds nothing and
takes the entries one after the other.  `Fills` follows this: the entries of
all fields, from the empty record to the one that was written.  `Reads` says
that a reader gives back what a writer writes, if it has the depth for it;
what it gives back may differ in what is not written, so it is a function of
what was written.

Main statements: `Reads.list`, `Reads.option` and `Reads.options` lift a
reader to lists and to parts that may be left out; `readRecord_fields` puts
the fields of a record together; `integer?_decimal` reads the text of an
integer.
-/

namespace CoreLowering.Interchange

variable {present : Bool}

/-! ## Integers as texts -/

theorem utf8EncodeChar_digit {c : Char} (h : c.isDigit = true) :
    String.utf8EncodeChar c = [UInt8.ofNat c.toNat] := by
  have hle : c.val.toNat ≤ 127 := Nat.le_trans (Char.isDigit_iff_toNat.1 h).2 (by decide)
  rw [String.utf8EncodeChar, if_pos hle]
  rfl

/-- The byte of a digit lies between those of zero and nine. -/
theorem digit_bounds {c : Char} (h : c.isDigit = true) :
    48 ≤ UInt8.ofNat c.toNat ∧ UInt8.ofNat c.toNat ≤ 57 := by
  obtain ⟨hlo, hhi⟩ := Char.isDigit_iff_toNat.1 h
  have hnine : '9'.toNat = 57 := rfl
  rw [UInt8.le_iff_toNat_le, UInt8.le_iff_toNat_le,
    UInt8.toNat_ofNat_of_lt' (show c.toNat < 256 by omega)]
  exact ⟨hlo, hhi⟩

theorem digit?_ofNat {c : Char} (h : c.isDigit = true) :
    digit? (UInt8.ofNat c.toNat) = some (c.toNat - '0'.toNat) := by
  have hhi := (Char.isDigit_iff_toNat.1 h).2
  have hnine : '9'.toNat = 57 := rfl
  rw [digit?, if_pos (digit_bounds h),
    UInt8.toNat_ofNat_of_lt' (show c.toNat < 256 by omega)]
  rfl

/-- Digits are read from the left, as they spell a number. -/
theorem foldlM_digits {cs : List Char} (h : ∀ c ∈ cs, c.isDigit = true) (n : Nat) :
    (cs.flatMap String.utf8EncodeChar).foldlM (fun n b => (digit? b).map (10 * n + ·)) n =
      some (Nat.ofDigitChars 10 cs n) := by
  induction cs generalizing n with
  | nil => rfl
  | cons c cs ih =>
    have hc := h c List.mem_cons_self
    rw [List.flatMap_cons, utf8EncodeChar_digit hc, List.singleton_append, List.foldlM_cons,
      digit?_ofNat hc]
    exact ih (fun c' hc' => h c' (List.mem_cons_of_mem _ hc')) _

/-- The digits of a number spell it, and the first one is no sign. -/
theorem exists_digits (n : Nat) :
    ∃ d ds, Bytes.ofString n.repr = d :: ds ∧ 48 ≤ d ∧ natural? (d :: ds) = some n := by
  have hdigits : ∀ c ∈ Nat.toDigits 10 n, c.isDigit = true := fun c hc =>
    Nat.isDigit_of_mem_toDigits (by decide) (by decide) hc
  have hread := foldlM_digits hdigits 0
  rw [Nat.ofDigitChars_ten_toDigits] at hread
  rw [Utf8.ofString_eq, Nat.toList_repr]
  cases hcs : Nat.toDigits 10 n with
  | nil => exact absurd hcs Nat.toDigits_ne_nil
  | cons c cs =>
    rw [hcs] at hdigits hread
    have hc := hdigits c List.mem_cons_self
    rw [List.flatMap_cons, utf8EncodeChar_digit hc, List.singleton_append] at hread ⊢
    exact ⟨_, _, rfl, (digit_bounds hc).1, hread⟩

theorem integer?_repr (n : Nat) : integer? (Bytes.ofString n.repr) = some (n : Int) := by
  obtain ⟨d, ds, heq, hd, hread⟩ := exists_digits n
  have hminus : d ≠ 45 := by
    rintro rfl
    exact absurd hd (by decide)
  have hplus : d ≠ 43 := by
    rintro rfl
    exact absurd hd (by decide)
  rw [heq, integer?, hread]
  · rfl
  · simpa using hminus
  · simpa using hplus

/-- The text of an integer is read as the integer. -/
theorem integer?_decimal (n : Int) : integer? (Bytes.ofString (toString n)) = some n := by
  rw [Int.toString_eq_repr, Int.repr_eq_if]
  split_ifs with h
  · rw [integer?_repr, Int.toNat_of_nonneg h]
  · obtain ⟨d, ds, heq, -, hread⟩ := exists_digits (-n).toNat
    have hsign : Bytes.ofString ("-" ++ (-n).toNat.repr) = 45 :: d :: ds := by
      rw [← heq, Utf8.ofString_eq, Utf8.ofString_eq, String.toList_append, List.flatMap_append]
      rfl
    have hneg : -((-n).toNat : Int) = n := by omega
    rw [hsign, integer?, hread]
    exact congrArg some hneg

/-! ## Numbers in words -/

theorem readByte_byte (n : UInt8) : readByte (.byte n) = .ok n := by
  have hlt := n.toNat_lt
  have h : UInt8.ofInt n.toNat = n := by
    rw [UInt8.ofInt, Int.emod_eq_of_lt (by omega) (by omega), Int.toNat_natCast,
      UInt8.ofNat_toNat]
  exact congrArg Except.ok h

theorem readWord_word (n : UInt32) : readWord (.word n) = .ok n := by
  have hlt := n.toNat_lt
  have h : UInt32.ofInt n.toNat = n := by
    rw [UInt32.ofInt, Int.emod_eq_of_lt (by omega) (by omega), Int.toNat_natCast,
      UInt32.ofNat_toNat]
  exact congrArg Except.ok h

theorem readLong_long (n : UInt64) : readLong (.long n) = .ok n := by
  have hlt := n.toNat_lt
  have h : UInt64.ofInt n.toNat = n := by
    rw [UInt64.ofInt, Int.emod_eq_of_lt (by omega) (by omega), Int.toNat_natCast,
      UInt64.ofNat_toNat]
  exact congrArg Except.ok h

/-! ## Parts -/

/-- The reader gives back what the writer writes within `bound` bytes, as far
as it is written. -/
def Reads {α : Type} (bound : Nat) (read : Reader α) (write : α → Msg) (carry : α → α) : Prop :=
  ∀ a, (write a).encode.length ≤ bound → read none (write a) = .ok (carry a)

/-- A message that is a map from the names of fields. -/
def IsRecord (m : Msg) : Prop :=
  ∃ entries, m = Msg.fields entries

theorem IsRecord.ne_nil {m : Msg} (h : IsRecord m) : m ≠ .nil := by
  obtain ⟨entries, rfl⟩ := h
  exact Msg.noConfusion

theorem IsRecord.length_pos {m : Msg} (h : IsRecord m) : 0 < m.encode.length := by
  obtain ⟨entries, rfl⟩ := h
  exact Msg.length_pos_fields entries

section Parts

variable {α : Type} {bound : Nat} {read : Reader α} {write : α → Msg} {carry : α → α} {as : List α}

/-- Without any depth there is no record to read. -/
theorem Reads.zero (hwrite : ∀ a, IsRecord (write a)) : Reads 0 read write carry := by
  intro a hbound
  have := (hwrite a).length_pos
  omega

theorem Reads.items (h : Reads bound read write carry)
    (hbound : ∀ a ∈ as, (write a).encode.length ≤ bound) :
    readItems read [] (as.map write) = .ok (as.map carry) := by
  induction as with
  | nil => rfl
  | cons a as ih =>
    have ha := h a (hbound a List.mem_cons_self)
    have has := ih fun a' ha' => hbound a' (List.mem_cons_of_mem _ ha')
    simp only [List.map_cons, readItems, List.head?_nil, List.tail_nil, ha, has]
    rfl

theorem Reads.list? (h : Reads bound read write carry)
    (hbound : (Msg.arr (as.map write)).encode.length ≤ bound) :
    readList? read [] (.arr (as.map write)) = .ok (some (as.map carry)) := by
  have has : ∀ a ∈ as, (write a).encode.length ≤ bound := fun a ha =>
    Nat.le_of_lt (Nat.lt_of_lt_of_le (Msg.length_lt_arr (List.mem_map_of_mem ha)) hbound)
  rw [readList?, h.items has]
  rfl

theorem Reads.list (h : Reads bound read write carry)
    (hbound : (Msg.arr (as.map write)).encode.length ≤ bound) :
    readList read [] (.arr (as.map write)) = .ok (as.map carry) := by
  rw [readList, h.list? hbound]
  rfl

/-- A part that may be left out.  No record is written as nil, so nil stands
for none. -/
theorem Reads.option (h : Reads bound read write carry) (hwrite : ∀ a, IsRecord (write a)) :
    Reads bound (fun old => readOption read old.join) (orNil write) (Option.map carry) := by
  intro a hbound
  cases a with
  | none => rfl
  | some a =>
    have ha := h a hbound
    simp only [orNil, Option.join_none, Option.map_some]
    rw [readOption, ha]
    · rfl
    · exact (hwrite a).ne_nil

end Parts

/-! ## Fields -/

/-- Reading entries one after the other with `set` leads from one record to
another, if none of them takes more than `bound` bytes.  The entries are
those of fields in `names`. -/
inductive Fills {α : Type} (names : List String) (set : α → String → Msg → Read α)
    (bound : Nat) : α → List (String × Msg) → α → Prop where
  | nil {a : α} : Fills names set bound a [] a
  | cons {entries : List (String × Msg)} {a b c : α} {name : String} {m : Msg} :
      name ∈ names → (m.encode.length ≤ bound → set a name m = .ok b) →
      Fills names set bound b entries c → Fills names set bound a ((name, m) :: entries) c

section Fields

variable {α β : Type} {names : List String} {set : α → String → Msg → Read α} {bound : Nat}
  {a b : α} {entries : List (String × Msg)}

theorem Fills.mem_names (h : Fills names set bound a entries b) : ∀ e ∈ entries, e.1 ∈ names := by
  induction h with
  | nil => simp
  | cons hname _ _ ih => exact List.forall_mem_cons.2 ⟨hname, ih⟩

theorem Fills.foldlM (h : Fills names set bound a entries b)
    (hbound : ∀ e ∈ entries, e.2.encode.length ≤ bound) :
    entries.foldlM (fun a e => set a e.1 e.2) a = .ok b := by
  induction h with
  | nil => rfl
  | cons _ hset _ ih =>
    rw [List.forall_mem_cons] at hbound
    rw [List.foldlM_cons, hset hbound.1]
    exact ih hbound.2

/-- Entries for fields of the record are read by `set`. -/
theorem readRecord_fields (hnames : ∀ e ∈ entries, e.1 ∈ names) :
    readRecord names a set none (.fields entries) =
      entries.foldlM (fun a e => set a e.1 e.2) a := by
  rw [Msg.fields_eq, readRecord, List.foldlM_map, Option.getD_none]
  induction entries generalizing a with
  | nil => rfl
  | cons e es ih =>
    have hname : names.contains (Utf8.lenientText (Bytes.ofString e.1)) = true := by
      rw [Utf8.lenientText_ofString]
      exact List.contains_iff_mem.2 (hnames e List.mem_cons_self)
    rw [List.foldlM_cons, List.foldlM_cons]
    refine congr (congrArg bind ?_) (funext fun c => ih fun e' he' => ?_)
    · exact (if_pos hname).trans (by rw [Utf8.lenientText_ofString])
    · exact hnames e' (List.mem_cons_of_mem _ he')

/-- Reading over an empty record is reading anew. -/
theorem readRecord_some_empty (m : Msg) :
    readRecord names a set (some a) m = readRecord names a set none m := by
  cases m <;> rfl

/-- **A record whose fields are filled from its entries is read back from
them.**  No entries follow the last field. -/
theorem Fills.readRecord (h : Fills names set bound a (entries ++ []) b)
    (hbound : (Msg.fields entries).encode.length ≤ bound + 1) :
    readRecord names a set none (.fields entries) = .ok b := by
  rw [List.append_nil] at h
  rw [readRecord_fields h.mem_names]
  apply h.foldlM
  intro e he
  have := Msg.length_lt_fields (show (e.1, e.2) ∈ entries from he)
  omega

end Fields

/-! ## Rules for the fields of a record

In each of them `put` places the value of the field into the record that has
the fields before it.  What `put` is shows when the field is read. -/

section Rules

variable {α β : Type} {names : List String} {set : α → String → Msg → Read α} {bound : Nat}
  {a c : α} {entries : List (String × Msg)} {name : String} {m : Msg} {v : β} {x : Read β}

theorem Fills.done (h : a = c) : Fills names set bound a [] c :=
  h ▸ .nil

/-- A field that is always written. -/
theorem Fills.field {put : β → α} (hname : names.contains name = true)
    (hset : set a name m = (do return put (← x))) (hx : m.encode.length ≤ bound → x = .ok v)
    (h : Fills names set bound (put v) entries c) :
    Fills names set bound a ((name, m) :: entries) c := by
  refine .cons (List.contains_iff_mem.1 hname) (fun hm => ?_) h
  rw [hset, hx hm]
  rfl

/-- A field that is left out where it holds `z`. -/
theorem Fills.optional {put : β → α} {z : β} (hname : names.contains name = true)
    (hset : set a name m = (do return put (← x))) (hzero : put z = a)
    (hx : present = true → m.encode.length ≤ bound → x = .ok v) (habsent : present = false → v = z)
    (h : Fills names set bound (put v) entries c) :
    Fills names set bound a (Msg.optional present name m ++ entries) c := by
  cases present with
  | false =>
    rw [habsent rfl, hzero] at h
    exact h
  | true => exact h.field hname hset (hx rfl)

/-- A truth value is left out where it is false. -/
theorem Fills.flag {put : Bool → α} {v : Bool} (hname : names.contains name = true)
    (hset : set a name (.bool true) = (do return put (← readBool (.bool true))))
    (hzero : put false = a) (h : Fills names set bound (put v) entries c) :
    Fills names set bound a (Msg.optional v name (.bool true) ++ entries) c := by
  refine .optional hname hset hzero ?_ id h
  rintro rfl _
  rfl

/-- Bytes are left out where there are none. -/
theorem Fills.bytes {put : Bytes → α} {v : Bytes} (hname : names.contains name = true)
    (hset : set a name m = (do return put (← readBytes m))) (hzero : put [] = a)
    (hm : readBytes m = .ok v) (h : Fills names set bound (put v) entries c) :
    Fills names set bound a (Msg.optional (!v.isEmpty) name m ++ entries) c :=
  .optional hname hset hzero (fun _ _ => hm) (by simp) h

/-- The digits of an integer, if the kind asks for one. -/
def digits (present : Bool) (n : Int) : Bytes :=
  if present then Bytes.ofString (toString n) else []

/-- An integer comes as digits. -/
theorem Fills.digits {put : Bytes → α} {n : Int} (hname : names.contains name = true)
    (hset : set a name (decimal n) = (do return put (← readBytes (decimal n)))) (hzero : put [] = a)
    (h : Fills names set bound (put (digits present n)) entries c) :
    Fills names set bound a (Msg.optional present name (decimal n) ++ entries) c := by
  refine .optional hname hset hzero ?_ ?_ h
  · rintro rfl _
    rfl
  · rintro rfl
    rfl

section Parts

variable {read : Reader β} {write : β → Msg} {carry : β → β}

theorem Fills.list {put : List β → α} {v : List β} (hname : names.contains name = true)
    (hset : set a name (.arr (v.map write)) =
      (do return put (← readList read [] (.arr (v.map write)))))
    (hzero : put [] = a) (hread : Reads bound read write carry)
    (h : Fills names set bound (put (v.map carry)) entries c) :
    Fills names set bound a
      (Msg.optional (!v.isEmpty) name (.arr (v.map write)) ++ entries) c :=
  .optional hname hset hzero (fun _ hm => hread.list hm) (by simp) h

theorem Fills.option {put : Option β → α} {v : Option β} (hname : names.contains name = true)
    (hset : set a name (orNil write v) = (do return put (← readOption read none (orNil write v))))
    (hzero : put none = a) (hread : Reads bound read write carry)
    (hwrite : ∀ b, IsRecord (write b)) (h : Fills names set bound (put (v.map carry)) entries c) :
    Fills names set bound a (Msg.optional v.isSome name (orNil write v) ++ entries) c :=
  .optional hname hset hzero (fun _ hm => hread.option hwrite v hm) (by simp) h

theorem Fills.options {put : List (Option β) → α} {v : List (Option β)}
    (hname : names.contains name = true) (hset : set a name (.arr (v.map (orNil write))) =
      (do return put (← readOptions read [] (.arr (v.map (orNil write)))))) (hzero : put [] = a)
    (hread : Reads bound read write carry) (hwrite : ∀ b, IsRecord (write b))
    (h : Fills names set bound (put (v.map (Option.map carry))) entries c) :
    Fills names set bound a
      (Msg.optional (!v.isEmpty) name (.arr (v.map (orNil write))) ++ entries) c :=
  .list hname hset hzero (hread.option hwrite) h

end Parts

end Rules

end CoreLowering.Interchange
