import CoreLowering.Proofs.Binary.Numbers

/-!
# Messages as bytes and back

A message is read back from its bytes if its integers are within their
widths and its lengths fit into the four bytes that a header has for them at
most.

Main statements: `decode_encode`, such a message is read back;
`length_lt_arr` and `length_lt_fields`, a part of a message takes less room
than the message, so that no part is deeper than the bytes are many.
-/

namespace CoreLowering.Msg

variable {m : Msg} {ms : List Msg} {es : List (Msg × Msg)} {n : Int} {e : Msg × Msg} {fuel : Nat}
  {b : Bytes}

/-- The message comes back from its bytes. -/
def Faithful (m : Msg) : Prop :=
  decode m.encode = m

/-! ## Parts take less room -/

theorem length_pos_lengthHeader (short shortMax : Nat) (one : Option UInt8) (two four : UInt8)
    (length : Nat) : 0 < (lengthHeader short shortMax one two four length).length := by
  cases one <;> unfold lengthHeader <;> split_ifs <;> exact Nat.succ_pos _

theorem length_le_encodeAll (h : m ∈ ms) : m.encode.length ≤ (encodeAll ms).length := by
  induction ms with
  | nil => simp at h
  | cons m' ms ih =>
    rw [encodeAll, List.length_append]
    rcases List.mem_cons.1 h with rfl | h
    · omega
    · have := ih h
      omega

theorem length_le_encodeEntries (h : e ∈ es) :
    e.1.encode.length + e.2.encode.length ≤ (encodeEntries es).length := by
  induction es with
  | nil => simp at h
  | cons e' es ih =>
    rw [encodeEntries, List.length_append, List.length_append]
    rcases List.mem_cons.1 h with rfl | h
    · omega
    · have := ih h
      omega

theorem length_lt_arr (h : m ∈ ms) : m.encode.length < (Msg.arr ms).encode.length := by
  have hle := length_le_encodeAll h
  have hpos := length_pos_lengthHeader 0x90 16 none 0xdc 0xdd ms.length
  rw [encode, List.length_append]
  omega

theorem length_lt_map (h : e ∈ es) :
    e.1.encode.length + e.2.encode.length < (Msg.map es).encode.length := by
  have hle := length_le_encodeEntries h
  have hpos := length_pos_lengthHeader 0x80 16 none 0xde 0xdf es.length
  rw [encode, List.length_append]
  omega

theorem fields_eq (entries : List (String × Msg)) :
    fields entries = .map (entries.map fun e => (text e.1, e.2)) := rfl

theorem length_pos_fields (entries : List (String × Msg)) : 0 < (fields entries).encode.length := by
  have hpos := length_pos_lengthHeader 0x80 16 none 0xde 0xdf
    (entries.map fun e => (text e.1, e.2)).length
  rw [fields_eq, encode, List.length_append]
  omega

theorem length_lt_fields {name : String} {entries : List (String × Msg)} (h : (name, m) ∈ entries) :
    m.encode.length < (fields entries).encode.length := by
  have hmem : (text name, m) ∈ entries.map fun e => (text e.1, e.2) :=
    List.mem_map.2 ⟨(name, m), h, rfl⟩
  exact Nat.lt_of_le_of_lt (Nat.le_add_left _ _) (length_lt_map hmem)

/-! ## Messages that fit -/

/-- How many integers without sign the format holds. -/
def IntFormat.room : IntFormat → Nat
  | .fixed => 128
  | .i8 | .i16 | .i32 | .i64 => 0
  | format => 256 ^ IntFormat.width format

mutual

/-- Whether the integers of a message are unsigned and within their widths
and every length is a word of 32 bits. -/
def fits : Msg → Bool
  | nil => true
  | bool _ => true
  | int format n => 0 ≤ n && n.toNat < IntFormat.room format
  | str b => b.length < 256 ^ 4
  | bin b => b.length < 256 ^ 4
  | arr items => items.length < 256 ^ 4 && fitsAll items
  | map entries => entries.length < 256 ^ 4 && fitsEntries entries
  | _ => false

/-- Whether all messages of a list fit. -/
def fitsAll : List Msg → Bool
  | [] => true
  | m :: ms => m.fits && fitsAll ms

/-- Whether all keys and values of entries fit. -/
def fitsEntries : List (Msg × Msg) → Bool
  | [] => true
  | (k, v) :: es => k.fits && v.fits && fitsEntries es

end

/-- An integer without sign is read back after its header. -/
theorem readInt_bigEndian {format : IntFormat} (h₀ : 0 ≤ n)
    (h : n.toNat < 256 ^ IntFormat.width format) (rest : Bytes) :
    readInt format false (Bytes.bigEndian (IntFormat.width format)
      (n % Nat.pow 256 (IntFormat.width format)).toNat ++ rest) = (.int format n, some rest) := by
  have hmod : (n % Nat.pow 256 (IntFormat.width format)).toNat = n.toNat := by
    rw [Int.emod_eq_of_lt h₀]
    exact (Int.toNat_lt h₀).1 h
  rw [hmod, readInt, split?_of_length (Bytes.length_bigEndian _ _)]
  simp only [Bytes.ofBigEndian_of_lt h, Int.toNat_of_nonneg h₀, Bool.false_eq_true, if_false]

/-! ## Reading what was written -/

/-- A header says how long something is, in one way or another; reading goes
on with the length. -/
theorem readIn_lengthHeader {fuel : Nat} {next : Nat → Bytes → Reading}
    {short shortMax length : Nat} {one : Option UInt8} {two four : UInt8}
    (hshort : ∀ k < shortMax, ∀ rest,
      readAfter (readIn fuel) (.ofNat (short + k)) rest = next k rest)
    (hone : ∀ h ∈ one, ∀ rest, readAfter (readIn fuel) h rest = readLength 1 next rest)
    (htwo : ∀ rest, readAfter (readIn fuel) two rest = readLength 2 next rest)
    (hfour : ∀ rest, readAfter (readIn fuel) four rest = readLength 4 next rest)
    (hlength : length < 256 ^ 4) (rest : Bytes) :
    readIn (fuel + 1) (lengthHeader short shortMax one two four length ++ rest) =
      next length rest := by
  have hread : ∀ width, length < 256 ^ width →
      readLength width next (Bytes.bigEndian width length ++ rest) = next length rest := by
    intro width hw
    rw [readLength, split?_of_length (Bytes.length_bigEndian _ _)]
    simp only [Bytes.ofBigEndian_of_lt hw]
  cases one with
  | none =>
    simp only [lengthHeader]
    split_ifs with h0 h2
    · exact hshort _ h0 _
    · exact (htwo _).trans (hread 2 h2)
    · exact (hfour _).trans (hread 4 hlength)
  | some header =>
    simp only [lengthHeader]
    split_ifs with h0 h1 h2
    · exact hshort _ h0 _
    · exact (hone _ rfl _).trans (hread 1 h1)
    · exact (htwo _).trans (hread 2 h2)
    · exact (hfour _).trans (hread 4 hlength)

theorem readAfter_shortMap (read : Bytes → Reading) (k : Nat) (hk : k < 16) (rest : Bytes) :
    readAfter read (.ofNat (0x80 + k)) rest = readMap read k rest := by
  simp only [readAfter, UInt8.toNat_ofNat_of_lt' (show 0x80 + k < 256 by omega)]
  rw [if_neg (by omega), if_pos (by omega), Nat.add_sub_cancel_left]

theorem readAfter_shortArr (read : Bytes → Reading) (k : Nat) (hk : k < 16) (rest : Bytes) :
    readAfter read (.ofNat (0x90 + k)) rest = readArr read k rest := by
  simp only [readAfter, UInt8.toNat_ofNat_of_lt' (show 0x90 + k < 256 by omega)]
  rw [if_neg (by omega), if_neg (by omega), if_pos (by omega), Nat.add_sub_cancel_left]

theorem readAfter_shortStr (read : Bytes → Reading) (k : Nat) (hk : k < 32) (rest : Bytes) :
    readAfter read (.ofNat (0xa0 + k)) rest = readBytes .str k rest := by
  simp only [readAfter, UInt8.toNat_ofNat_of_lt' (show 0xa0 + k < 256 by omega)]
  rw [if_neg (by omega), if_neg (by omega), if_neg (by omega), if_pos (by omega),
    Nat.add_sub_cancel_left]

theorem readAfter_fixed (read : Bytes → Reading) (hn : 0 ≤ n) (hroom : n.toNat < 128)
    (rest : Bytes) : readAfter read (.ofInt n) rest = (.int .fixed n, some rest) := by
  have hbyte : (UInt8.ofInt n).toNat = n.toNat := by
    rw [UInt8.ofInt, Int.emod_eq_of_lt hn (by omega),
      UInt8.toNat_ofNat_of_lt' (show n.toNat < 256 by omega)]
  simp only [readAfter, hbyte]
  rw [if_pos hroom, Int.toNat_of_nonneg hn]

theorem readIn_int {format : IntFormat} (h : (Msg.int format n).fits = true) (fuel : Nat)
    (rest : Bytes) :
    readIn (fuel + 1) ((Msg.int format n).encode ++ rest) = (.int format n, some rest) := by
  rw [fits, Bool.and_eq_true, decide_eq_true_eq, decide_eq_true_eq] at h
  obtain ⟨hn, hroom⟩ := h
  cases format with
  | fixed => exact readAfter_fixed _ hn hroom rest
  | u8 | u16 | u32 | u64 => exact readInt_bigEndian hn hroom rest
  | i8 | i16 | i32 | i64 => exact absurd hroom (Nat.not_lt_zero _)

theorem readIn_str (h : b.length < 256 ^ 4) (fuel : Nat) (rest : Bytes) :
    readIn (fuel + 1) ((Msg.str b).encode ++ rest) = (.str b, some rest) := by
  have hone : ∀ header ∈ some (0xd9 : UInt8), ∀ rest,
      readAfter (readIn fuel) header rest = readLength 1 (readBytes .str) rest := by
    intro header h rest
    rw [← Option.some_inj.1 h]
    rfl
  rw [encode, List.append_assoc,
    readIn_lengthHeader (readAfter_shortStr _) hone (fun _ => rfl) (fun _ => rfl) h, readBytes,
    split?_append]

theorem readIn_bin (h : b.length < 256 ^ 4) (fuel : Nat) (rest : Bytes) :
    readIn (fuel + 1) ((Msg.bin b).encode ++ rest) = (.bin b, some rest) := by
  have hone : ∀ header ∈ some (0xc4 : UInt8), ∀ rest,
      readAfter (readIn fuel) header rest = readLength 1 (readBytes .bin) rest := by
    intro header h rest
    rw [← Option.some_inj.1 h]
    rfl
  rw [encode, List.append_assoc,
    readIn_lengthHeader (fun _ hk => absurd hk (Nat.not_lt_zero _)) hone (fun _ => rfl)
      (fun _ => rfl) h, readBytes, split?_append]

/-- Messages are read one after the other. -/
theorem readItems_encodeAll {read : Bytes → Reading}
    (h : ∀ m ∈ ms, ∀ rest, read (m.encode ++ rest) = (m, some rest)) (rest : Bytes) :
    readItems read ms.length (encodeAll ms ++ rest) = (ms, some rest) := by
  induction ms with
  | nil => rfl
  | cons m ms ih =>
    have hms := ih fun m' hm' => h m' (List.mem_cons_of_mem _ hm')
    simp only [encodeAll, List.append_assoc, List.length_cons, readItems,
      h m List.mem_cons_self, hms]

theorem readEntries_encodeEntries {read : Bytes → Reading}
    (h : ∀ e ∈ es, (∀ rest, read (e.1.encode ++ rest) = (e.1, some rest)) ∧
      ∀ rest, read (e.2.encode ++ rest) = (e.2, some rest)) (rest : Bytes) :
    readEntries read es.length (encodeEntries es ++ rest) = (es, some rest) := by
  induction es with
  | nil => rfl
  | cons e es ih =>
    have hes := ih fun e' he' => h e' (List.mem_cons_of_mem _ he')
    obtain ⟨hk, hv⟩ := h e List.mem_cons_self
    simp only [encodeEntries, List.append_assoc, List.length_cons, readEntries, hk, hv, hes]

theorem fitsAll_iff (ms : List Msg) : fitsAll ms = true ↔ ∀ m ∈ ms, m.fits = true := by
  induction ms with
  | nil => simp [fitsAll]
  | cons m ms ih => simp [fitsAll, ih]

theorem fitsEntries_iff (es : List (Msg × Msg)) :
    fitsEntries es = true ↔ ∀ e ∈ es, e.1.fits = true ∧ e.2.fits = true := by
  induction es with
  | nil => simp [fitsEntries]
  | cons e es ih => simp [fitsEntries, ih]

/-- A message that fits is read back, whatever comes after it.  The parts of
a message take less room than it, so induction on the fuel reaches them. -/
theorem readIn_encode (h : m.fits = true) (hfuel : m.encode.length < fuel) (rest : Bytes) :
    readIn fuel (m.encode ++ rest) = (m, some rest) := by
  induction fuel generalizing m rest with
  | zero => omega
  | succ fuel ih =>
    cases m with
    | nil => rfl
    | bool b => cases b <;> rfl
    | int format n => exact readIn_int h fuel rest
    | str b => exact readIn_str (by simpa [fits] using h) fuel rest
    | bin b => exact readIn_bin (by simpa [fits] using h) fuel rest
    | arr ms =>
      rw [fits, Bool.and_eq_true, decide_eq_true_eq, fitsAll_iff] at h
      have hms : ∀ m ∈ ms, ∀ rest, readIn fuel (m.encode ++ rest) = (m, some rest) := by
        intro m hm
        have := length_lt_arr hm
        exact ih (h.2 m hm) (by omega)
      rw [encode, List.append_assoc, readIn_lengthHeader (readAfter_shortArr _) (by simp)
        (fun _ => rfl) (fun _ => rfl) h.1]
      simp only [readArr, readItems_encodeAll hms]
    | map es =>
      rw [fits, Bool.and_eq_true, decide_eq_true_eq, fitsEntries_iff] at h
      have hes : ∀ e ∈ es, (∀ rest, readIn fuel (e.1.encode ++ rest) = (e.1, some rest)) ∧
          ∀ rest, readIn fuel (e.2.encode ++ rest) = (e.2, some rest) := by
        intro e he
        have := length_lt_map he
        exact ⟨ih (h.2 e he).1 (by omega), ih (h.2 e he).2 (by omega)⟩
      rw [encode, List.append_assoc, readIn_lengthHeader (readAfter_shortMap _) (by simp)
        (fun _ => rfl) (fun _ => rfl) h.1]
      simp only [readMap, readEntries_encodeEntries hes]
    | float | ext | broken => simp [fits] at h

/-- A message that fits comes back from its bytes. -/
theorem decode_encode (h : m.fits = true) : Faithful m := by
  have hread := readIn_encode h (Nat.lt_succ_self _) []
  rw [List.append_nil] at hread
  rw [Faithful, decode, hread]

end CoreLowering.Msg
