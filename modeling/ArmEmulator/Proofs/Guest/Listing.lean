import ArmEmulator.Listing
import ArmEmulator.Proofs.Guest.Stacking
import ArmEmulator.Text.Numeral

/-!
# Listings against reads

A listing walks the bytes of memory four at a time from the place of its start, while a read
looks for the place of each word by itself.  Up to the end of memory both find the same
words.

Main results:

- Theorem {lit}`Hex.denotes_padded`: the padded digits of a number that has room for them
  are as many digits as asked for, and are read back as the number.
- Theorem {lit}`Ram.words_eq`: the words of a listing are the bytes from its start, four at
  a time.
- Theorem {lit}`Ram.listing_shows_reads`: a listing has one line for each word that can be
  read from its start upwards, with the address and the value of the word.
-/

namespace ArmEmulator

/-! ## Digits -/

namespace Hex

/-- Text that denotes a number by lower-case hexadecimal digits, of a fixed number. -/
structure Denotes (width : Nat) (text : String) (n : Nat) : Prop where
  length : text.length = width
  digits : ∀ c ∈ text.toList, c ∈ "0123456789abcdef".toList
  value : Numeral.readDigits 16 (Nat.pow 16 width) 0 text.toList = .ok n

theorem readDigits_append {base bound : Nat} (n : Nat) (cs ds : List Char) :
    Numeral.readDigits base bound n (cs ++ ds) =
      (Numeral.readDigits base bound n cs).bind fun m => Numeral.readDigits base bound m ds := by
  induction cs generalizing n with
  | nil => rfl
  | cons c cs ih =>
      rw [List.cons_append, Numeral.readDigits, Numeral.readDigits]
      cases Numeral.digit? base c with
      | none => rfl
      | some d =>
          by_cases h : base * n + d < bound
          · simp only [h, if_true, ih]
          · simp only [h, if_false]
            rfl

/-- The character of a digit has the value of the digit. -/
theorem digit?_digitChar {d : Nat} (h : d < 16) : Numeral.digit? 16 d.digitChar = some d := by
  revert d
  decide

theorem digitChar_mem {d : Nat} (h : d < 16) : d.digitChar ∈ "0123456789abcdef".toList := by
  revert d
  decide

/-- The digits of a number are read back as the number. -/
theorem readDigits_toDigits {bound n : Nat} (h : n < bound) :
    Numeral.readDigits 16 bound 0 (Nat.toDigits 16 n) = .ok n := by
  induction n using Nat.strongRecOn with
  | ind n ih =>
      rw [Nat.toDigits_eq_if (by decide)]
      by_cases hsmall : n < 16
      · simp [hsmall, Numeral.readDigits, digit?_digitChar, h]
      · have hlast : 16 * (n / 16) + n % 16 = n := Nat.div_add_mod n 16
        rw [if_neg hsmall, readDigits_append, ih (n / 16) (by omega) (by omega)]
        have hdigit := digit?_digitChar (Nat.mod_lt n (by decide : 0 < 16))
        simp [Except.bind, Numeral.readDigits, hdigit, hlast, h]

/-- Zeros in front of digits do not count. -/
theorem readDigits_replicate_zero {bound : Nat} (h : 0 < bound) (k : Nat) (cs : List Char) :
    Numeral.readDigits 16 bound 0 (List.replicate k '0' ++ cs) =
      Numeral.readDigits 16 bound 0 cs := by
  induction k with
  | zero => rfl
  | succ k ih =>
      have hzero : Numeral.digit? 16 '0' = some 0 := by decide
      rw [List.replicate_succ, List.cons_append, Numeral.readDigits, hzero]
      simp only [Nat.mul_zero, Nat.add_zero, h, if_true, ih]

theorem mem_toDigits {n : Nat} {c : Char} (h : c ∈ Nat.toDigits 16 n) :
    c ∈ "0123456789abcdef".toList := by
  induction n using Nat.strongRecOn with
  | ind n ih =>
      rw [Nat.toDigits_eq_if (by decide)] at h
      by_cases hsmall : n < 16
      · rw [if_pos hsmall, List.mem_singleton] at h
        exact h ▸ digitChar_mem hsmall
      · rw [if_neg hsmall, List.mem_append, List.mem_singleton] at h
        rcases h with hfront | rfl
        · exact ih (n / 16) (by omega) hfront
        · exact digitChar_mem (Nat.mod_lt n (by decide))

/-- The padded digits of a number that has room for them denote the number. -/
theorem denotes_padded {width n : Nat} (hwidth : 0 < width) (h : n < Nat.pow 16 width) :
    Denotes width (padded width n) n where
  length := by
    have hlength : (Nat.toDigits 16 n).length ≤ width :=
      (Nat.length_toDigits_le_iff (by decide) hwidth).2 h
    simp only [padded, String.length_ofList, List.length_append, List.length_replicate]
    omega
  digits c hc := by
    rw [padded, String.toList_ofList, List.mem_append] at hc
    rcases hc with hzero | hdigit
    · rw [List.eq_of_mem_replicate hzero]
      decide
    · exact mem_toDigits hdigit
  value := by
    rw [padded, String.toList_ofList, readDigits_replicate_zero (by omega), readDigits_toDigits h]

end Hex

/-! ## Lines -/

/-- A line that shows an address and a value, each as eight digits. -/
def LineShows (line : String) (addr value : Nat) : Prop :=
  ∃ a v rest, line = "0x" ++ a ++ ":  " ++ v ++ "  " ++ rest ∧
    Hex.Denotes 8 a addr ∧ Hex.Denotes 8 v value

theorem lineShows_listingLine (d : Disassembler) (addr word : Word) :
    LineShows (listingLine d addr word) addr.toNat word.toNat := by
  refine ⟨Hex.padded 8 addr.toNat, Hex.padded 8 word.toNat, d.describe word addr, ?_,
    Hex.denotes_padded (by decide) addr.isLt, Hex.denotes_padded (by decide) word.isLt⟩
  rw [listingLine, Hex.address]

/-! ## Words -/

/-- The words of bytes taken four at a time; fewer than four make no word. -/
def wordsOfBytes : List Byte → List Word
  | a :: b :: c :: d :: rest => Word.ofBytes [a, b, c, d] :: wordsOfBytes rest
  | _ => []

theorem wordsOfBytes_eq_nil {bytes : List Byte} (h : bytes.length < 4) :
    wordsOfBytes bytes = [] := by
  fun_cases wordsOfBytes bytes with
  | case1 a b c d rest => simp at h; omega
  | case2 => rfl

namespace Ram

variable {ram : Ram} {start : Word}

/-- The words of bytes from an offset on are the words that lie behind one another there. -/
theorem take_wordsOfBytes (ram : Ram) (count i n : Nat) :
    (wordsOfBytes (ram.bytesAt i n)).take count =
      (List.range (min count (n / 4))).map fun k => Word.ofBytes (ram.bytesAt (i + 4 * k) 4) := by
  induction count generalizing i n with
  | zero => simp
  | succ count ih =>
      by_cases h : n < 4
      · rw [wordsOfBytes_eq_nil (by simpa using h), Nat.div_eq_of_lt h]
        simp
      · obtain ⟨m, rfl⟩ := Nat.exists_eq_add_of_le' (Nat.le_of_not_lt h)
        have hcount : min (count + 1) ((m + 4) / 4) = min count (m / 4) + 1 := by omega
        have hwords : wordsOfBytes (ram.bytesAt i (m + 4)) =
            Word.ofBytes (ram.bytesAt i 4) :: wordsOfBytes (ram.bytesAt (i + 4) m) := rfl
        have hplace (k : Nat) : i + 4 + 4 * k = i + 4 * (k + 1) := by omega
        rw [hwords, List.take_succ_cons, ih, hcount, List.range_succ_eq_map, List.map_cons,
          List.map_map]
        simp only [hplace, Function.comp_def]
        rfl

/-- The words of a listing are those of the bytes from the place of its start, four at a time. -/
theorem words_eq (ram : Ram) (start : Word) (count : Nat) :
    ram.words start count =
      ((ram.offset? start 0).elim [] fun i => wordsOfBytes (ram.bytesAt i (ram.size - i))).take
        count := by
  unfold words
  cases ram.offset? start 0 with
  | none => simp
  | some i => exact (take_wordsOfBytes ram count i (ram.size - i)).symm

/-- Whether a number of words can be read from an address upwards without passing the end of
the window. -/
def Readable (ram : Ram) (start : Word) (n : Nat) : Prop :=
  ∀ i < n, start.toNat + 4 * (i + 1) ≤ ram.endAddress ∧ (ram.word? (start.next i)).isSome

/-- The number of whole words from an address to the end of the window. -/
def wordsFrom (ram : Ram) (start : Word) : Nat :=
  if ram.base ≤ start then (ram.endAddress - start.toNat) / 4 else 0

/-- In a window that ends inside the address space a word behind the start has the value of
the four bytes at its distance from the start. -/
theorem word?_next (hend : ram.endAddress ≤ 0x100000000) {i k : Nat}
    (hstart : ram.offset? start 0 = some i) (hk : k < (ram.size - i) / 4) :
    ram.word? (start.next k) = some (Word.ofBytes (ram.bytesAt (i + 4 * k) 4)) := by
  obtain ⟨haddr, hsize⟩ := offset?_eq_some_iff.1 hstart
  have hfits : start.toNat + 4 * k < 0x100000000 := by
    rw [endAddress] at hend
    omega
  have hoffset : ram.offset? (start.next k) 4 = some (i + 4 * k) := by
    rw [offset?_eq_some_iff, Word.toNat_next, Nat.mod_eq_of_lt hfits]
    omega
  simp [word?, load?, hoffset]

/-- From the place of an address on there are as many whole words as bytes for them. -/
theorem wordsFrom_of_offset? {i : Nat} (h : ram.offset? start 0 = some i) :
    ram.wordsFrom start = (ram.size - i) / 4 := by
  obtain ⟨haddr, -⟩ := offset?_eq_some_iff.1 h
  have hbase : ram.base ≤ start := BitVec.le_def.2 (by omega)
  rw [wordsFrom, if_pos hbase, endAddress]
  congr 1
  omega

/-- An address outside of the window, other than its end, has no words. -/
theorem wordsFrom_eq_zero (h : ram.offset? start 0 = none) : ram.wordsFrom start = 0 := by
  unfold offset? at h
  unfold wordsFrom endAddress
  by_cases hbase : ram.base ≤ start
  · have hle := BitVec.le_def.1 hbase
    simp only [hbase, true_and, ite_eq_right_iff, reduceCtorEq, imp_false] at h
    rw [if_pos hbase]
    omega
  · rw [if_neg hbase]

/-- As many words can be read from an address upwards as fit up to the end of the window. -/
theorem readable_iff (hend : ram.endAddress ≤ 0x100000000) (n : Nat) :
    ram.Readable start n ↔ n ≤ ram.wordsFrom start := by
  constructor
  · intro hreadable
    cases n with
    | zero => exact Nat.zero_le _
    | succ n =>
        -- the first word does not lie below the window, and the last one ends inside it
        obtain ⟨-, hfirst⟩ := hreadable 0 (Nat.succ_pos n)
        obtain ⟨hlast, -⟩ := hreadable n (Nat.lt_succ_self n)
        rw [Word.next_zero, word?, load?, Option.isSome_map, Option.isSome_map] at hfirst
        obtain ⟨i, hoffset⟩ := Option.isSome_iff_exists.1 hfirst
        obtain ⟨haddr, -⟩ := offset?_eq_some_iff.1 hoffset
        have hbase : ram.base ≤ start := BitVec.le_def.2 (by omega)
        rw [wordsFrom, if_pos hbase]
        omega
  · intro hle k hk
    cases hstart : ram.offset? start 0 with
    | none =>
        rw [wordsFrom_eq_zero hstart] at hle
        omega
    | some i =>
        rw [wordsFrom_of_offset? hstart] at hle
        obtain ⟨haddr, hsize⟩ := offset?_eq_some_iff.1 hstart
        refine ⟨?_, ?_⟩
        · rw [endAddress]
          omega
        · rw [word?_next hend hstart (by omega)]
          rfl

theorem length_words (ram : Ram) (start : Word) (count : Nat) :
    (ram.words start count).length = min count (ram.wordsFrom start) := by
  unfold words
  cases hstart : ram.offset? start 0 with
  | none => simp [wordsFrom_eq_zero hstart]
  | some i => simp [wordsFrom_of_offset? hstart]

/-- Each word of a listing is the one that a read of its address finds. -/
theorem words_getElem? (hend : ram.endAddress ≤ 0x100000000) {count k : Nat}
    (hk : k < min count (ram.wordsFrom start)) :
    (ram.words start count)[k]? = ram.word? (start.next k) := by
  unfold words
  cases hstart : ram.offset? start 0 with
  | none =>
      rw [wordsFrom_eq_zero hstart] at hk
      omega
  | some i =>
      rw [wordsFrom_of_offset? hstart] at hk
      rw [word?_next hend hstart (by omega)]
      simp [List.getElem?_range hk]

/-- In a window that ends inside the address space a listing has one line for each word that
can be read from its start upwards, up to the number asked for.  Each line shows the address
of its word and the value that a read of this address finds, however the words are described.
There are no lines from a start below the window or from one with fewer than four bytes
left. -/
theorem listing_shows_reads (ram : Ram) (d : Disassembler) (start : Word) (count : Nat)
    (hend : ram.endAddress ≤ 0x100000000) :
    ∃ k, (∀ n, ram.Readable start n ↔ n ≤ k) ∧
      (ram.listing d start count).length = min count k ∧
      (∀ i < min count k, ∃ line word, (ram.listing d start count)[i]? = some line ∧
        ram.word? (start + BitVec.ofNat 32 (4 * i)) = some word ∧
        LineShows line (start.toNat + 4 * i) word.toNat) ∧
      (start < ram.base ∨ ram.endAddress < start.toNat + 4 → ram.listing d start count = []) := by
  have hlength : (ram.listing d start count).length = min count (ram.wordsFrom start) := by
    rw [listing, List.length_mapIdx, length_words]
  refine ⟨ram.wordsFrom start, readable_iff hend, hlength, ?_, ?_⟩
  · intro i hi
    have hall : ram.Readable start (ram.wordsFrom start) := (readable_iff hend _).2 (Nat.le_refl _)
    obtain ⟨hlast, hread⟩ := hall i (by omega)
    obtain ⟨word, hword⟩ := Option.isSome_iff_exists.1 hread
    have hline : (ram.listing d start count)[i]? = some (listingLine d (start.next i) word) := by
      rw [listing, List.getElem?_mapIdx, words_getElem? hend hi, hword]
      rfl
    have haddr : (start.next i).toNat = start.toNat + 4 * i := by
      rw [Word.toNat_next, Nat.mod_eq_of_lt (by omega)]
    exact ⟨_, word, hline, hword, haddr ▸ lineShows_listingLine d (start.next i) word⟩
  · intro houtside
    have hnone : ram.wordsFrom start = 0 := by
      unfold wordsFrom
      rcases houtside with hbelow | hlittle
      · rw [if_neg (BitVec.not_le.2 hbelow)]
      · split
        · omega
        · rfl
    rw [hnone, Nat.min_zero] at hlength
    exact List.eq_nil_of_length_eq_zero hlength

/-- In a window of 14 bytes up to the end of the address space, two words can be read from the
fifth byte upwards, and these are listed. -/
theorem listing_shows_reads_top :
    (zeroed 0xfffffff2 14).endAddress ≤ 0x100000000 ∧
      (∀ n, (zeroed 0xfffffff2 14).Readable 0xfffffff6 n ↔ n ≤ 2) ∧
      ((zeroed 0xfffffff2 14).listing (fun _ _ => none) 0xfffffff6 9).length = 2 := by
  have hend : (zeroed 0xfffffff2 14).endAddress ≤ 0x100000000 := by decide
  obtain ⟨k, hreadable, hlength, -⟩ :=
    listing_shows_reads (zeroed 0xfffffff2 14) (fun _ _ => none) 0xfffffff6 9 hend
  have htwo : ((zeroed 0xfffffff2 14).listing (fun _ _ => none) 0xfffffff6 9).length = 2 := rfl
  obtain rfl : k = 2 := by omega
  exact ⟨hend, hreadable, htwo⟩

end Ram

end ArmEmulator
