import Mathlib.Data.List.Forall2
import Mathlib.Data.Nat.Digits.Defs
import Sequencer.Instruction.Program

/-!
# Written streams

A stream is written as lines of binary digits, as bytes, and into the buffer
that the digest covers. All of them hold the words of the stream and nothing
else: the lines and the bytes are read back as the words, the buffer holds the
bytes, and every byte string of whole words is what its words are written as.
-/

namespace Sequencer
namespace Word

-- ---------------------------------------------------------------------------
-- Bytes
-- ---------------------------------------------------------------------------

def byteValue (bytes : List UInt8) : Nat := bytes.foldr (fun b n => n * 256 + b.toNat) 0

def lowBytes (count n : Nat) : List UInt8 :=
  (List.range count).map fun i => UInt8.ofNat (n / Nat.pow 2 (8 * i))

@[simp] theorem length_lowBytes (count n : Nat) : (lowBytes count n).length = count := by
  simp [lowBytes]

theorem lowBytes_succ (count n : Nat) :
    lowBytes (count + 1) n = UInt8.ofNat n :: lowBytes count (n / 256) := by
  have hshift (i : Nat) : n / 2 ^ (8 * (i + 1)) = n / 256 / 2 ^ (8 * i) := by
    rw [Nat.div_div_eq_div_mul, Nat.mul_succ, Nat.pow_add, Nat.mul_comm]
  simp only [lowBytes, List.range_succ_eq_map, List.map_cons, List.map_map, Nat.pow_eq]
  simp [Function.comp_def, hshift]

theorem byteValue_lowBytes (count n : Nat) : byteValue (lowBytes count n) = n % 256 ^ count := by
  induction count generalizing n with
  | zero => simp [lowBytes, byteValue, Nat.mod_one]
  | succ count ih =>
    have hbyte : (UInt8.ofNat n).toNat = n % 256 := by simp
    have hcons : byteValue (lowBytes (count + 1) n) = byteValue (lowBytes count (n / 256)) * 256 + n % 256 := by
      rw [lowBytes_succ, ← hbyte]
      rfl
    rw [hcons, ih, Nat.pow_succ', Nat.mod_mul, Nat.mul_comm, Nat.add_comm]

theorem byteValue_lt (bytes : List UInt8) : byteValue bytes < 256 ^ bytes.length := by
  induction bytes with
  | nil => simp [byteValue]
  | cons b rest ih =>
    have hcons : byteValue (b :: rest) = byteValue rest * 256 + b.toNat := rfl
    have hb : b.toNat < 256 := b.toNat_lt
    rw [hcons, List.length_cons, Nat.pow_succ]
    omega

theorem lowBytes_byteValue (bytes : List UInt8) : lowBytes bytes.length (byteValue bytes) = bytes := by
  induction bytes with
  | nil => rfl
  | cons b rest ih =>
    have hcons : byteValue (b :: rest) = byteValue rest * 256 + b.toNat := rfl
    have hb : b.toNat < 256 := b.toNat_lt
    have hhead : UInt8.ofNat (byteValue (b :: rest)) = b := by
      refine UInt8.toNat_inj.mp ?_
      simp only [hcons, UInt8.toNat_ofNat']
      omega
    have htail : byteValue (b :: rest) / 256 = byteValue rest := by omega
    rw [List.length_cons, lowBytes_succ, hhead, htail, ih]

theorem ofBytes_toBytes (w : Word) : ofBytes w.toBytes = w := by
  have hlt : w.toNat < 256 ^ 8 := w.toNat_lt
  have hvalue : byteValue w.toBytes = w.toNat :=
    (byteValue_lowBytes 8 w.toNat).trans (Nat.mod_eq_of_lt hlt)
  rw [ofBytes, ← byteValue, hvalue, UInt64.ofNat_toNat]

theorem toBytes_ofBytes {bytes : List UInt8} (h : bytes.length = 8) : (ofBytes bytes).toBytes = bytes := by
  have hlt := byteValue_lt bytes
  rw [h] at hlt
  have hvalue : (ofBytes bytes).toNat = byteValue bytes := UInt64.toNat_ofNat_of_lt' hlt
  have hbytes : (ofBytes bytes).toBytes = lowBytes 8 (ofBytes bytes).toNat := rfl
  rw [hbytes, hvalue, ← h, lowBytes_byteValue]

@[simp] theorem length_toBytes (w : Word) : w.toBytes.length = 8 := length_lowBytes 8 w.toNat

theorem listOfBytes_append {bytes : List UInt8} (h : bytes.length = 8) (rest : List UInt8) :
    listOfBytes (bytes ++ rest) = ofBytes bytes :: listOfBytes rest := by
  match bytes, h with
  | [_, _, _, _, _, _, _, _], _ => rfl

theorem listOfBytes_flatMap (words : List Word) : listOfBytes (words.flatMap toBytes) = words := by
  induction words with
  | nil => rfl
  | cons w rest ih => rw [List.flatMap_cons, listOfBytes_append w.length_toBytes, ofBytes_toBytes, ih]

theorem flatMap_listOfBytes {bytes : List UInt8} (h : bytes.length % 8 = 0) :
    (listOfBytes bytes).flatMap toBytes = bytes := by
  fun_induction listOfBytes bytes with
  | case1 b0 b1 b2 b3 b4 b5 b6 b7 rest ih =>
    have hrest : rest.length % 8 = 0 := by
      simp only [List.length_cons] at h
      omega
    rw [List.flatMap_cons, toBytes_ofBytes rfl, ih hrest]
    rfl
  | case2 bytes hshort =>
    -- fewer than eight bytes are none
    match bytes, h, hshort with
    | [], _, _ => rfl
    | b0 :: b1 :: b2 :: b3 :: b4 :: b5 :: b6 :: b7 :: rest, _, hshort =>
      exact absurd rfl (hshort b0 b1 b2 b3 b4 b5 b6 b7 rest)

theorem length_flatMap_toBytes (words : List Word) : (words.flatMap toBytes).length = 8 * words.length := by
  induction words with
  | nil => rfl
  | cons w rest ih =>
    rw [List.flatMap_cons, List.length_append, length_toBytes, ih, List.length_cons]
    omega

-- ---------------------------------------------------------------------------
-- The buffer of the digest
-- ---------------------------------------------------------------------------

theorem foldl_setIfInBounds {bytes old : List UInt8} (h : bytes.length = old.length) (before after : List UInt8)
    (k : Nat) {offset : Nat} (hoffset : offset + k = before.length) :
    (bytes.zipIdx k).foldl (fun b e => b.setIfInBounds (offset + e.2) e.1) (before ++ old ++ after).toArray =
      (before ++ bytes ++ after).toArray := by
  induction bytes generalizing old before k with
  | nil => simp [List.eq_nil_of_length_eq_zero h.symm]
  | cons b rest ih =>
    obtain ⟨x, old, rfl⟩ := List.exists_cons_of_length_eq_add_one h.symm
    have hset : (before ++ x :: old ++ after).toArray.setIfInBounds (offset + k) b =
        (before ++ [b] ++ old ++ after).toArray := by
      rw [List.setIfInBounds_toArray, hoffset]
      simp
    rw [List.zipIdx_cons, List.foldl_cons, hset, ih (by simpa using h) (before ++ [b]) (k + 1)
      (by simp; omega)]
    simp

theorem store_eq {old : List UInt8} (h : old.length = 8) (before after : List UInt8) (w : Word) :
    store (before ++ old ++ after).toArray before.length w = (before ++ w.toBytes ++ after).toArray :=
  foldl_setIfInBounds (by simp [h]) before after 0 rfl

theorem foldl_store (words : List Word) (before : List UInt8) {k : Nat} (h : before.length = 8 * k) :
    (words.zipIdx k).foldl (fun b e => store b (8 * e.2) e.1)
        (before ++ List.replicate (8 * words.length) 0).toArray =
      (before ++ words.flatMap toBytes).toArray := by
  induction words generalizing before k with
  | nil => simp
  | cons w rest ih =>
    have hempty : before ++ List.replicate (8 * (w :: rest).length) 0 =
        before ++ List.replicate 8 (0 : UInt8) ++ List.replicate (8 * rest.length) 0 := by
      rw [List.append_assoc, List.replicate_append_replicate, List.length_cons]
      congr 2
      omega
    rw [List.zipIdx_cons, List.foldl_cons, ← h, hempty, store_eq (by simp),
      ih (before ++ w.toBytes) (by simp [h]; omega)]
    simp

theorem toList_image (words : List Word) : (image words).toList = words.flatMap toBytes := by
  have hstored := foldl_store words [] (k := 0) rfl
  simp only [List.nil_append, List.toArray_replicate] at hstored
  rw [image, hstored]

-- ---------------------------------------------------------------------------
-- Lines
-- ---------------------------------------------------------------------------

def digitOf (c : Char) : Nat := if c = '1' then 1 else 0

/-- The line consists of 64 binary digits, which say the word in the usual
order. -/
structure Spells (line : List Char) (w : Word) : Prop where
  length : line.length = 64
  binary : ∀ c ∈ line, c = '0' ∨ c = '1'
  value : Nat.ofDigits 2 (line.reverse.map digitOf) = w.toNat

theorem ofDigits_testBits {m k : Nat} (h : k ≤ m) (n : Nat) :
    Nat.ofDigits 2 (((List.range k).map fun i => (n.testBit (m - 1 - i)).toNat).reverse) =
      n / 2 ^ (m - k) % 2 ^ k := by
  induction k with
  | zero => simp [Nat.mod_one]
  | succ k ih =>
    have hbit : m - 1 - k = m - (k + 1) := by omega
    have hup : 2 ^ (m - k) = 2 ^ (m - (k + 1)) * 2 := by
      rw [← Nat.pow_succ]
      congr 1
      omega
    rw [List.range_succ, List.map_append, List.reverse_append, List.map_singleton, List.reverse_singleton,
      List.singleton_append, Nat.ofDigits_cons, ih (by omega), Nat.toNat_testBit, hbit, hup,
      ← Nat.div_div_eq_div_mul, Nat.pow_succ', Nat.mod_mul]

theorem spells_text (w : Word) : Spells w.text.toList w := by
  have hlist : w.text.toList = w.bits.map fun b => if b then '1' else '0' := String.toList_ofList
  refine ⟨by simp [hlist, bits], ?_, ?_⟩
  · rw [hlist]
    refine List.forall_mem_map.mpr fun b _ => ?_
    cases b <;> simp
  · have hdigit (b : Bool) : digitOf (if b then '1' else '0') = b.toNat := by cases b <;> rfl
    have hlt : w.toNat < 2 ^ 64 := w.toNat_lt
    have hvalue := ofDigits_testBits (Nat.le_refl 64) w.toNat
    rw [Nat.sub_self, Nat.pow_zero, Nat.div_one, Nat.mod_eq_of_lt hlt] at hvalue
    rw [hlist, ← List.map_reverse, List.map_map, bits, ← List.map_reverse, List.map_map]
    rw [← List.map_reverse] at hvalue
    simpa [Function.comp_def, hdigit] using hvalue

theorem Spells.newline_notMem {line : List Char} {w : Word} (h : Spells line w) : '\n' ∉ line := by
  intro hmem
  rcases h.binary _ hmem with heq | heq <;> cases heq

end Word

namespace InstructionProgram

theorem toList_text (p : InstructionProgram) :
    p.text.toList = p.words.flatMap fun w => w.text.toList ++ ['\n'] := by
  rw [text]
  induction p.words with
  | nil => rfl
  | cons w rest ih => simp [String.join_cons, ih]

/-- Lines without a line break inside, each with one behind it, are the pieces
between the line breaks. -/
theorem splitOn_flatMap_lines (lines : List (List Char)) (h : ∀ line ∈ lines, '\n' ∉ line) :
    (lines.flatMap (· ++ ['\n'])).splitOn '\n' = lines ++ [[]] := by
  induction lines with
  | nil => rfl
  | cons line rest ih =>
    obtain ⟨hline, hrest⟩ := List.forall_mem_cons.mp h
    rw [List.flatMap_cons, List.append_assoc, List.singleton_append,
      List.splitOn_append_cons_self_of_not_mem hline, ih hrest, List.cons_append]

theorem readStream_bytes (p : InstructionProgram) : readStream p.bytes = .ok p.words := by
  have hlength : p.bytes.length % 8 = 0 := by
    rw [bytes, Word.length_flatMap_toBytes, Nat.mul_mod_right]
  rw [readStream, if_pos hlength, bytes, Word.listOfBytes_flatMap]

/-- The forms of a stream agree. The bytes are read back as its words; the text
splits at its line breaks into one line per word, which spells the word; the
digest covers the bytes. A byte string is refused exactly if it does not
consist of whole words, and otherwise it is what its words are written as, in
whatever slices they stand. -/
theorem serializations_agree (p : InstructionProgram) (data : List UInt8) :
    readStream p.bytes = .ok p.words ∧
    (∃ lines, p.text.toList.splitOn '\n' = lines ++ [[]] ∧ List.Forall₂ Word.Spells lines p.words) ∧
    ((Word.image p.words).toList = p.bytes ∧ p.digest = Blake3.hash p.bytes) ∧
    ((∃ e, readStream data = .error e) ↔ data.length % 8 ≠ 0) ∧
    (data.length % 8 = 0 → ∃ words, readStream data = .ok words ∧
      ∀ q : InstructionProgram, q.words = words → q.bytes = data) := by
  have himage : (Word.image p.words).toList = p.bytes := Word.toList_image p.words
  refine ⟨readStream_bytes p, ⟨p.words.map fun w => w.text.toList, ?_, ?_⟩,
    ⟨himage, by rw [digest, himage]⟩, ?_, ?_⟩
  · rw [toList_text, ← List.flatMap_map (fun w : Word => w.text.toList) (· ++ ['\n']), splitOn_flatMap_lines]
    refine List.forall_mem_map.mpr fun w _ => ?_
    exact (Word.spells_text w).newline_notMem
  · rw [List.forall₂_map_left_iff, List.forall₂_same]
    exact fun w _ => Word.spells_text w
  · unfold readStream
    split <;> simp [*]
  · intro hwhole
    refine ⟨Word.listOfBytes data, by rw [readStream, if_pos hwhole], fun q hq => ?_⟩
    rw [bytes, hq, Word.flatMap_listOfBytes hwhole]

end InstructionProgram
end Sequencer
