import CoreLowering.Proofs.Binary.Numbers
import CoreLowering.Proofs.Layout.Boxed

/-!
# Reading the CBOR form of data

`readIn` reads one value from the start of some bytes and gives it with the
bytes after it.  It looks at the major type of the first byte: byte strings
and lists have open-ended forms beside those with a head, everything else
starts with a head.

Main statements: `readIn_encode`, the form of a value is read back, whatever
comes after it; `encode_uniquely_decodable`, so no form is the start of
another one.  The number of entries of a map stands in its head, which holds
64 bits; `Data.fits` says that it does fit, as every length in memory does.
-/

namespace CoreLowering.Data

variable {k : Nat} {α : Type}

mutual

/-- Whether the number of entries of every map is a word of 64 bits. -/
def fits : Data → Bool
  | constr _ fields => fitsAll fields
  | map entries => entries.length < UInt64.size && fitsEntries entries
  | list items => fitsAll items
  | _ => true

/-- Whether all values of a list fit. -/
def fitsAll : List Data → Bool
  | [] => true
  | x :: xs => x.fits && fitsAll xs

/-- Whether all keys and values of entries fit. -/
def fitsEntries : List (Data × Data) → Bool
  | [] => true
  | (k, v) :: es => k.fits && v.fits && fitsEntries es

end

namespace Cbor

variable {fuel major : Nat} {b rest : Bytes}

/-! ## The reader -/

/-- Reads a head: its major type and its number. -/
def readHead : Bytes → Option ((Nat × Nat) × Bytes)
  | [] => none
  | b :: rest =>
    let info := b.toNat % 32
    if info < 24 then some ((b.toNat / 32, info), rest)
    else do
      let (digits, rest) ← Msg.split? (2 ^ (info - 24)) rest
      return ((b.toNat / 32, Bytes.ofBigEndian digits), rest)

/-- Reads as many bytes as a head says. -/
def readChunk (input : Bytes) : Option (Bytes × Bytes) := do
  let ((_, n), rest) ← readHead input
  Msg.split? n rest

/-- Reads with `read` until the break byte comes, at most `fuel` times. -/
def readUntilBreak {α : Type} (read : Bytes → Option (α × Bytes)) :
    (fuel : Nat) → Bytes → Option (List α × Bytes)
  | 0, _ => none
  | _ + 1, 0xff :: rest => some ([], rest)
  | fuel + 1, input => do
    let (x, rest) ← read input
    let (xs, rest) ← readUntilBreak read fuel rest
    return (x :: xs, rest)

/-- Reads a byte string: one chunk, or chunks up to the break byte. -/
def readByteString (fuel : Nat) : Bytes → Option (Bytes × Bytes)
  | 0x5f :: rest => do
    let (chunks, rest) ← readUntilBreak readChunk fuel rest
    return (chunks.flatten, rest)
  | input => readChunk input

/-- Reads a list: an empty one, or items up to the break byte. -/
def readList (read : Bytes → Option (Data × Bytes)) (fuel : Nat) :
    Bytes → Option (List Data × Bytes)
  | 0x9f :: rest => readUntilBreak read fuel rest
  | input => some ([], input.drop 1)

/-- Reads `n` entries. -/
def readEntries (read : Bytes → Option (Data × Bytes)) :
    (n : Nat) → Bytes → Option (List (Data × Data) × Bytes)
  | 0, input => some ([], input)
  | n + 1, input => do
    let (k, rest) ← read input
    let (v, rest) ← read rest
    let (es, rest) ← readEntries read n rest
    return ((k, v) :: es, rest)

/-- Reads what follows a tag: a long integer or the fields of a constructor. -/
def readTagged (read : Bytes → Option (Data × Bytes)) (fuel : Nat) (tag : Nat)
    (input : Bytes) : Option (Data × Bytes) :=
  if tag = 2 ∨ tag = 3 then do
    let (digits, rest) ← readByteString fuel input
    let n := Bytes.ofBigEndian digits
    return (.int (if tag = 2 then .ofNat n else .negSucc n), rest)
  else if tag = 102 then do
    let (_, rest) ← readHead input
    let ((_, tag), rest) ← readHead rest
    let (fields, rest) ← readList read fuel rest
    return (.constr (.ofNat tag) fields, rest)
  else do
    let (fields, rest) ← readList read fuel input
    return (.constr (.ofNat (if tag < 1280 then tag - 121 else tag - 1280 + 7)) fields, rest)

/-- Reads what follows a head that starts neither a byte string nor a list. -/
def readAfter (read : Bytes → Option (Data × Bytes)) (fuel major n : Nat) (input : Bytes) :
    Option (Data × Bytes) :=
  match major with
  | 0 => some (.int n, input)
  | 1 => some (.int (.negSucc n), input)
  | 5 => do
    let (entries, rest) ← readEntries read n input
    return (.map entries, rest)
  | _ => readTagged read fuel n input

/-- Reads a value that is at most `fuel` deep. -/
def readIn : (fuel : Nat) → Bytes → Option (Data × Bytes)
  | 0, _ => none
  | fuel + 1, input => do
    let first ← input.head?
    match first.toNat / 32 with
    | 2 =>
      let (bs, rest) ← readByteString fuel input
      return (.bytes bs, rest)
    | 4 =>
      let (items, rest) ← readList (readIn fuel) fuel input
      return (.list items, rest)
    | _ =>
      let ((major, n), rest) ← readHead input
      readAfter (readIn fuel) fuel major n rest

/-! ## Heads -/

theorem toNat_headByte (hm : major < 8) (hk : k < 32) :
    (UInt8.ofNat (32 * major + k)).toNat = 32 * major + k := by
  rw [UInt8.toNat_ofNat']
  omega

/-- A head is one byte with a small number in it, or a byte with the width
of the number and then the number. -/
theorem head_cases (major n : Nat) (hn : n < UInt64.size) :
    (n < 24 ∧ head major n = [UInt8.ofNat (32 * major + n)]) ∨
      ∃ k < 4, n < 256 ^ 2 ^ k ∧
        head major n = UInt8.ofNat (32 * major + (24 + k)) :: Bytes.bigEndian (2 ^ k) n := by
  simp only [head]
  split_ifs with h0 h1 h2 h3
  · exact .inl ⟨h0, rfl⟩
  · exact .inr ⟨0, by omega, by omega, rfl⟩
  · exact .inr ⟨1, by omega, by omega, rfl⟩
  · exact .inr ⟨2, by omega, by omega, rfl⟩
  · exact .inr ⟨3, by omega, hn, rfl⟩

/-- The first byte of a head shows its major type and opens nothing. -/
theorem exists_head (major n : Nat) (hm : major < 8) (hn : n < UInt64.size) :
    ∃ b bs, head major n = b :: bs ∧ b.toNat / 32 = major ∧ b.toNat % 32 < 28 := by
  obtain ⟨h, heq⟩ | ⟨k, hk, -, heq⟩ := head_cases major n hn
  · have hb := toNat_headByte (k := n) hm (by omega)
    exact ⟨_, _, heq, by omega, by omega⟩
  · have hb := toNat_headByte (k := 24 + k) hm (by omega)
    exact ⟨_, _, heq, by omega, by omega⟩

/-- Bytes of which the first one shows the given major type. -/
def Starts (major : Nat) (b : Bytes) : Prop :=
  ∃ c cs, b = c :: cs ∧ c.toNat / 32 = major

theorem Starts.append (h : Starts major b) (b' : Bytes) : Starts major (b ++ b') := by
  obtain ⟨c, cs, rfl, hc⟩ := h
  exact ⟨c, cs ++ b', rfl, hc⟩

theorem Starts.length_pos (h : Starts major b) : 0 < b.length := by
  obtain ⟨c, cs, rfl, -⟩ := h
  exact Nat.succ_pos _

theorem starts_head (major n : Nat) (hm : major < 8) (hn : n < UInt64.size) :
    Starts major (head major n) := by
  obtain ⟨b, bs, heq, hb, -⟩ := exists_head major n hm hn
  exact ⟨b, bs, heq, hb⟩

/-- A head is read back. -/
theorem readHead_head (major n : Nat) (hm : major < 8) (hn : n < UInt64.size) (rest : Bytes) :
    readHead (head major n ++ rest) = some ((major, n), rest) := by
  obtain ⟨h, heq⟩ | ⟨k, hk, hlt, heq⟩ := head_cases major n hn
  · have hb := toNat_headByte (k := n) hm (by omega)
    have hinfo : (32 * major + n) % 32 = n := by omega
    have hmajor : (32 * major + n) / 32 = major := by omega
    rw [heq, List.singleton_append, readHead]
    simp only [hb, hinfo, hmajor, if_pos h]
  · have hb := toNat_headByte (k := 24 + k) hm (by omega)
    have hinfo : (32 * major + (24 + k)) % 32 = 24 + k := by omega
    have hmajor : (32 * major + (24 + k)) / 32 = major := by omega
    have hwide : ¬24 + k < 24 := by omega
    have hwidth : 2 ^ (24 + k - 24) = (Bytes.bigEndian (2 ^ k) n).length := by
      rw [Bytes.length_bigEndian, Nat.add_sub_cancel_left]
    rw [heq, List.cons_append, readHead]
    simp only [hb, hinfo, hmajor, if_neg hwide, hwidth, Msg.split?_append]
    simp [Bytes.ofBigEndian_of_lt hlt]

/-- What starts with a head that opens neither a byte string nor a list is
read by its head. -/
theorem readIn_head (major n : Nat) (hm : major < 8) (h₂ : major ≠ 2) (h₄ : major ≠ 4)
    (hn : n < UInt64.size) (fuel : Nat) (rest : Bytes) :
    readIn (fuel + 1) (head major n ++ rest) = readAfter (readIn fuel) fuel major n rest := by
  obtain ⟨b, bs, heq, hb, -⟩ := exists_head major n hm hn
  have hhead := readHead_head major n hm hn rest
  rw [heq, List.cons_append] at hhead ⊢
  simp only [readIn, List.head?_cons, Option.bind_eq_bind, Option.bind_some, hb, hhead]

theorem readIn_tag (tag : Nat) (ht : tag < UInt64.size) (fuel : Nat) (rest : Bytes) :
    readIn (fuel + 1) (head 6 tag ++ rest) = readTagged (readIn fuel) fuel tag rest := by
  rw [readIn_head _ _ (by omega) (by omega) (by omega) ht, readAfter]
  all_goals intro h; omega

/-! ## Up to the break byte -/

theorem readUntilBreak_break (read : Bytes → Option (α × Bytes)) (fuel : Nat) (rest : Bytes) :
    readUntilBreak read (fuel + 1) (0xff :: rest) = some ([], rest) := by
  rw [readUntilBreak]

theorem readUntilBreak_cons {read : Bytes → Option (α × Bytes)} {b : UInt8} {bs rest' : Bytes}
    {x : α} {xs : List α} (hb : b ≠ 0xff) (hx : read (b :: bs) = some (x, rest))
    (hxs : readUntilBreak read fuel rest = some (xs, rest')) :
    readUntilBreak read (fuel + 1) (b :: bs) = some (x :: xs, rest') := by
  rw [readUntilBreak]
  · simp [hx, hxs]
  · intro tail h
    exact hb (List.cons.inj h).1

/-! ## Byte strings -/

theorem readChunk_head (hb : b.length < UInt64.size) (rest : Bytes) :
    readChunk (head 2 b.length ++ b ++ rest) = some (b, rest) := by
  rw [readChunk, List.append_assoc, readHead_head _ _ (by omega) hb]
  simp

theorem chunks_nil : chunks [] = [] := by
  rw [chunks, dif_pos rfl]

theorem chunks_of_ne_nil (h : b ≠ []) :
    chunks b = head 2 (min b.length 64) ++ b.take (min b.length 64) ++
      chunks (b.drop (min b.length 64)) := by
  rw [chunks, dif_neg h]

/-- Chunks are read up to the break byte; together they are the byte string. -/
theorem readUntilBreak_chunks (b : Bytes) (fuel : Nat) (h : b.length < fuel) (rest : Bytes) :
    ∃ pieces, readUntilBreak readChunk fuel (chunks b ++ 0xff :: rest) = some (pieces, rest) ∧
      pieces.flatten = b := by
  induction fuel generalizing b with
  | zero => omega
  | succ fuel ih =>
    by_cases hb : b = []
    · subst hb
      rw [chunks_nil]
      exact ⟨[], readUntilBreak_break _ _ _, rfl⟩
    · have hpos : 0 < b.length := List.length_pos_iff.2 hb
      have hsize : UInt64.size = 2 ^ 64 := rfl
      rw [chunks_of_ne_nil hb]
      obtain ⟨n, hn⟩ : ∃ n, n = min b.length 64 := ⟨_, rfl⟩
      rw [← hn]
      have hlen : (b.take n).length = n := by
        rw [List.length_take]
        omega
      obtain ⟨pieces, hread, hpieces⟩ := ih (b := b.drop n) (by rw [List.length_drop]; omega)
      obtain ⟨c, cs, heq, hc, -⟩ := exists_head 2 n (by omega) (by omega)
      have hbreak : c ≠ 0xff := by
        rintro rfl
        exact absurd hc (by decide)
      have hchunk := readChunk_head (b := b.take n) (by omega) (chunks (b.drop n) ++ 0xff :: rest)
      rw [hlen, heq] at hchunk
      refine ⟨b.take n :: pieces, ?_, ?_⟩
      · rw [heq, List.append_assoc _ (chunks _)]
        exact readUntilBreak_cons hbreak hchunk hread
      · rw [List.flatten_cons, hpieces, List.take_append_drop]

theorem length_le_chunks (b : Bytes) : b.length ≤ (chunks b).length := by
  induction hn : b.length using Nat.strongRecOn generalizing b with
  | ind n ih =>
    by_cases hb : b = []
    · subst hb
      rw [← hn]
      exact Nat.zero_le _
    · have hpos : 0 < b.length := List.length_pos_iff.2 hb
      have hrest := ih _ (by omega) (b.drop (min b.length 64)) List.length_drop
      rw [chunks_of_ne_nil hb, List.length_append, List.length_append, List.length_take]
      omega

theorem starts_byteString (b : Bytes) : Starts 2 (byteString b) := by
  have hsize : UInt64.size = 2 ^ 64 := rfl
  rw [byteString]
  split_ifs with h
  · exact (starts_head 2 b.length (by omega) (by omega)).append b
  · exact ⟨0x5f, _, rfl, by decide⟩

/-- A byte string is read back, in one piece or in chunks. -/
theorem readByteString_byteString (hfuel : (byteString b).length ≤ fuel + 1) (rest : Bytes) :
    readByteString fuel (byteString b ++ rest) = some (b, rest) := by
  have hsize : UInt64.size = 2 ^ 64 := rfl
  rw [byteString] at hfuel ⊢
  split_ifs at hfuel ⊢ with hb
  · obtain ⟨c, cs, heq, hc, hinfo⟩ := exists_head 2 b.length (by omega) (by omega)
    have hchunk := readChunk_head (b := b) (by omega) rest
    rw [heq] at hchunk ⊢
    rw [← hchunk, List.append_assoc, List.cons_append, readByteString]
    intro tail htail
    rw [(List.cons.inj htail).1] at hinfo
    exact absurd hinfo (by decide)
  · have hle := length_le_chunks b
    simp only [List.length_append, List.length_cons] at hfuel
    obtain ⟨pieces, hread, rfl⟩ := readUntilBreak_chunks b fuel (by omega) rest
    rw [List.cons_append, List.cons_append, List.append_assoc, List.singleton_append,
      readByteString, hread]
    rfl

/-! ## Integers -/

theorem starts_integer (n : Int) : ∃ major < 7, Starts major (integer n) := by
  unfold integer
  split <;> split_ifs with hk
  · exact ⟨0, by omega, starts_head 0 _ (by omega) hk⟩
  · exact ⟨6, by omega, (starts_head 6 2 (by omega) (by decide)).append _⟩
  · exact ⟨1, by omega, starts_head 1 _ (by omega) hk⟩
  · exact ⟨6, by omega, (starts_head 6 3 (by omega) (by decide)).append _⟩

/-- An integer past 64 bits is read back from its tag and its bytes. -/
theorem readIn_magnitude (tag : Nat) (ht : tag = 2 ∨ tag = 3)
    (hfuel : (head 6 tag ++ byteString (magnitude k)).length ≤ fuel + 1) (rest : Bytes) :
    readIn (fuel + 1) (head 6 tag ++ byteString (magnitude k) ++ rest) =
      some (.int (if tag = 2 then .ofNat k else .negSucc k), rest) := by
  have hsize : UInt64.size = 2 ^ 64 := rfl
  have hpos := (starts_head 6 tag (by omega) (by omega)).length_pos
  rw [List.length_append] at hfuel
  rw [List.append_assoc, readIn_tag _ (by omega), readTagged, if_pos ht,
    readByteString_byteString (by omega)]
  simp [ofBigEndian_magnitude]

theorem readIn_integer {n : Int} (hfuel : (integer n).length ≤ fuel + 1) (rest : Bytes) :
    readIn (fuel + 1) (integer n ++ rest) = some (.int n, rest) := by
  unfold integer at hfuel ⊢
  split at hfuel <;> split_ifs at hfuel ⊢ with hk
  · exact readIn_head _ _ (by omega) (by omega) (by omega) hk fuel rest
  · exact readIn_magnitude 2 (by omega) hfuel rest
  · exact readIn_head _ _ (by omega) (by omega) (by omega) hk fuel rest
  · exact readIn_magnitude 3 (by omega) hfuel rest

/-! ## Constructors and lists -/

theorem starts_constrHead {tag : Nat} (ht : tag < UInt64.size) : Starts 6 (constrHead tag) := by
  have hsize : UInt64.size = 2 ^ 64 := rfl
  unfold constrHead
  split_ifs with h1 h2
  · exact starts_head 6 (121 + tag) (by omega) (by omega)
  · exact starts_head 6 (1280 + (tag - 7)) (by omega) (by omega)
  · exact ((starts_head 6 102 (by omega) (by omega)).append _).append _

/-- The three ranges of tags are told apart, and the fields come next. -/
theorem readIn_constrHead {tag : UInt64} {input : Bytes} {fields : List Data}
    (h : readList (readIn fuel) fuel input = some (fields, rest)) :
    readIn (fuel + 1) (constrHead tag.toNat ++ input) = some (.constr tag fields, rest) := by
  have hsize : UInt64.size = 2 ^ 64 := rfl
  have ht : tag.toNat < UInt64.size := tag.toNat_lt
  unfold constrHead
  split_ifs with h1 h2
  · have htag : (if 121 + tag.toNat < 1280 then 121 + tag.toNat - 121
        else 121 + tag.toNat - 1280 + 7) = tag.toNat := by split_ifs <;> omega
    rw [readIn_tag _ (by omega), readTagged, if_neg (by omega), if_neg (by omega), htag, h]
    simp
  · have htag : (if 1280 + (tag.toNat - 7) < 1280 then 1280 + (tag.toNat - 7) - 121
        else 1280 + (tag.toNat - 7) - 1280 + 7) = tag.toNat := by split_ifs <;> omega
    rw [readIn_tag _ (by omega), readTagged, if_neg (by omega), if_neg (by omega), htag, h]
    simp
  · rw [List.append_assoc, List.append_assoc, readIn_tag _ (by omega), readTagged,
      if_neg (by omega), if_pos rfl, readHead_head _ _ (by omega) (by omega)]
    simp [readHead_head 0 _ (by omega) ht, h]

theorem starts_encodeList (xs : List Data) : Starts 4 (encodeList xs) := by
  cases xs with
  | nil => exact ⟨0x80, [], by rw [encodeList], by decide⟩
  | cons x xs => exact ⟨0x9f, _, by rw [encodeList]; rfl, by decide⟩

/-- No value starts with the break byte, whose major type is 7. -/
theorem starts_encode {d : Data} (hv : d.valid = true) (hf : d.fits = true) :
    ∃ major < 7, Starts major (encode d) := by
  cases d with
  | constr tag fields =>
    rw [encode]
    exact ⟨6, by omega, (starts_constrHead tag.toNat_lt).append _⟩
  | map entries =>
    rw [fits, Bool.and_eq_true, decide_eq_true_eq] at hf
    rw [encode]
    exact ⟨5, by omega, (starts_head 5 _ (by omega) hf.1).append _⟩
  | list items =>
    rw [encode]
    exact ⟨4, by omega, starts_encodeList items⟩
  | int n => exact starts_integer n
  | bytes b =>
    rw [encode]
    exact ⟨2, by omega, starts_byteString b⟩
  | unknown kind => simp [valid] at hv

/-! ## Values -/

theorem readIn_list {items : List Data}
    (h : readList (readIn fuel) fuel (encodeList items ++ rest) = some (items, rest)) :
    readIn (fuel + 1) (encodeList items ++ rest) = some (.list items, rest) := by
  obtain ⟨c, cs, heq, hc⟩ := starts_encodeList items
  rw [heq, List.cons_append] at h ⊢
  simp [readIn, hc, h]

theorem readIn_bytes (hfuel : (byteString b).length ≤ fuel + 1) (rest : Bytes) :
    readIn (fuel + 1) (byteString b ++ rest) = some (.bytes b, rest) := by
  have hread := readByteString_byteString hfuel rest
  obtain ⟨c, cs, heq, hc⟩ := starts_byteString b
  rw [heq, List.cons_append] at hread ⊢
  simp [readIn, hc, hread]

theorem readList_cons (read : Bytes → Option (Data × Bytes)) (fuel : Nat) (x : Data)
    (xs : List Data) (rest : Bytes) :
    readList read fuel (encodeList (x :: xs) ++ rest) =
      readUntilBreak read fuel (encodeAll (x :: xs) ++ 0xff :: rest) := by
  simp [encodeList, encodeAll, readList]

mutual

/-- **The form of a value is read back**, whatever comes after it. -/
theorem readIn_encode : ∀ (d : Data) (fuel : Nat), d.valid = true → d.fits = true →
    (encode d).length ≤ fuel → ∀ rest, readIn fuel (encode d ++ rest) = some (d, rest)
  | d, 0, hv, hf, hfuel, rest => by
    obtain ⟨_, _, hstart⟩ := starts_encode hv hf
    have hpos := hstart.length_pos
    omega
  | .constr tag fields, fuel + 1, hv, hf, hfuel, rest => by
    have hpos := (starts_constrHead tag.toNat_lt).length_pos
    rw [encode, List.length_append] at hfuel
    rw [encode, List.append_assoc]
    exact readIn_constrHead (readList_encodeList fields fuel hv hf (by omega) rest)
  | .map entries, fuel + 1, hv, hf, hfuel, rest => by
    rw [fits, Bool.and_eq_true, decide_eq_true_eq] at hf
    have hpos := (starts_head 5 _ (by omega) hf.1).length_pos
    rw [encode, List.length_append] at hfuel
    rw [encode, List.append_assoc, readIn_head _ _ (by omega) (by omega) (by omega) hf.1,
      readAfter, readEntries_encodeEntries entries fuel hv hf.2 (by omega) rest]
    rfl
  | .list items, fuel + 1, hv, hf, hfuel, rest => by
    rw [encode] at hfuel ⊢
    exact readIn_list (readList_encodeList items fuel hv hf hfuel rest)
  | .int n, fuel + 1, _, _, hfuel, rest => readIn_integer hfuel rest
  | .bytes b, fuel + 1, _, _, hfuel, rest => by
    rw [encode] at hfuel ⊢
    exact readIn_bytes hfuel rest
  | .unknown _, _ + 1, hv, _, _, _ => by simp [valid] at hv

theorem readList_encodeList : ∀ (xs : List Data) (fuel : Nat), validAll xs = true →
    fitsAll xs = true → (encodeList xs).length ≤ fuel + 1 → ∀ rest,
      readList (readIn fuel) fuel (encodeList xs ++ rest) = some (xs, rest)
  | [], _, _, _, _, _ => by simp [encodeList, readList]
  | x :: xs, fuel, hv, hf, hfuel, rest => by
    have hlen : (encodeList (x :: xs)).length = (encodeAll (x :: xs)).length + 2 := by
      simp only [encodeList, encodeAll, List.length_append, List.length_cons, List.length_nil]
      omega
    rw [readList_cons]
    exact readUntilBreak_encodeAll (x :: xs) fuel fuel hv hf (by omega) (by omega) rest

/-- Values are read up to the break byte, with fuel for every one of them. -/
theorem readUntilBreak_encodeAll : ∀ (xs : List Data) (fuel n : Nat), validAll xs = true →
    fitsAll xs = true → (encodeAll xs).length ≤ fuel → (encodeAll xs).length < n → ∀ rest,
      readUntilBreak (readIn fuel) n (encodeAll xs ++ 0xff :: rest) = some (xs, rest)
  | _, _, 0, _, _, _, hn, _ => by omega
  | [], _, n + 1, _, _, _, _, rest => readUntilBreak_break _ n rest
  | x :: xs, fuel, n + 1, hv, hf, hfuel, hn, rest => by
    rw [validAll, Bool.and_eq_true] at hv
    rw [fitsAll, Bool.and_eq_true] at hf
    rw [encodeAll, List.length_append] at hfuel hn
    obtain ⟨major, hmajor, c, cs, heq, hc⟩ := starts_encode hv.1 hf.1
    have hbreak : c ≠ 0xff := by
      rintro rfl
      exact absurd (hc ▸ hmajor) (by decide)
    have hx := readIn_encode x fuel hv.1 hf.1 (by omega) (encodeAll xs ++ 0xff :: rest)
    rw [heq, List.length_cons] at hn
    have hxs := readUntilBreak_encodeAll xs fuel n hv.2 hf.2 (by omega) (by omega) rest
    rw [encodeAll, List.append_assoc]
    rw [heq, List.cons_append] at hx ⊢
    exact readUntilBreak_cons hbreak hx hxs

theorem readEntries_encodeEntries : ∀ (es : List (Data × Data)) (fuel : Nat),
    validEntries es = true → fitsEntries es = true → (encodeEntries es).length ≤ fuel → ∀ rest,
      readEntries (readIn fuel) es.length (encodeEntries es ++ rest) = some (es, rest)
  | [], _, _, _, _, _ => rfl
  | (k, v) :: es, fuel, hv, hf, hfuel, rest => by
    rw [validEntries, Bool.and_eq_true, Bool.and_eq_true] at hv
    rw [fitsEntries, Bool.and_eq_true, Bool.and_eq_true] at hf
    rw [encodeEntries, List.length_append, List.length_append] at hfuel
    rw [encodeEntries, List.append_assoc, List.append_assoc, List.length_cons, readEntries,
      readIn_encode k fuel hv.1.1 hf.1.1 (by omega)]
    simp [readIn_encode v fuel hv.1.2 hf.1.2 (by omega),
      readEntries_encodeEntries es fuel hv.2 hf.2 (by omega)]

end

/-- **No form is the start of another one.**  Two values whose forms start
the same bytes are the same, and so are the bytes left after them; values
that are the same have the same form. -/
theorem encode_uniquely_decodable (d e : Data) :
    (d.valid = true → e.valid = true → d.fits = true → e.fits = true →
      ∀ r s : Bytes, encode d ++ r = encode e ++ s → d.same e = true ∧ r = s) ∧
    (d.same e = true → encode d = encode e) := by
  constructor
  · intro hd he hfd hfe r s h
    -- enough fuel for both forms
    have hread := readIn_encode d _ hd hfd (Nat.le_add_right _ (encode e).length) r
    have hread' := readIn_encode e _ he hfe (Nat.le_add_left _ (encode d).length) s
    rw [h, hread'] at hread
    obtain ⟨rfl, rfl⟩ : e = d ∧ s = r := by simpa using hread
    exact ⟨e.same_self he, rfl⟩
  · intro h
    rw [eq_of_same h]

/-- A constructor with a long tag over a map is told from the break byte
after it, and an integer past 64 bits, which has a tag too, from a
constructor. -/
theorem encode_uniquely_decodable_tags :
    let d : Data := .constr 130 [.map [(.int (-7), .bytes [1, 2])], .list [.int 300]]
    (d.valid = true ∧ d.fits = true ∧ d.same d = true ∧ ([0xff] : Bytes) = [0xff]) ∧
      ∀ r s, encode (.int (2 ^ 64)) ++ r ≠ encode (.constr 2 []) ++ s := by
  refine ⟨⟨by decide, by decide, ?_⟩, fun r s h => ?_⟩
  · exact (encode_uniquely_decodable _ _).1 (by decide) (by decide) (by decide) (by decide) _ _ rfl
  · have hsame := (encode_uniquely_decodable _ _).1 (by decide) (by decide) (by decide) (by decide)
      r s h
    exact absurd hsame.1 (by decide)

end Cbor

end CoreLowering.Data
