import Cfp2Dreamcast.Checks.Canonical
import Cfp2Dreamcast.Checks.Triples
import Cfp2Dreamcast.Text.Csv

/-!
# From the capture to the shim

`check_triples.py` reads the streaming map that `parse_cart_log.py` has written. The two
programs agree on the format: what is read back are the transfers of the report, so the
verdict on the file is one on the transfers that the logs recorded.
-/

namespace Cfp2Dreamcast

open Text Program

/-! `check_triples.py`, on the text of the file. -/

/-- The ASCII characters that `int` strips. -/
def isPySpace (c : Char) : Bool :=
  c ∈ [' ', '\t', '\n', '\x0b', '\x0c', '\r', '\x1c', '\x1d', '\x1e', '\x1f']

/-- Further digits of a number, with single underscores between them. -/
def moreDigits (v : ℕ) : List Char → Option ℕ
  | [] => some v
  | '_' :: c :: cs => (hexDigit c).bind fun d => moreDigits (16 * v + d) cs
  | c :: cs => (hexDigit c).bind fun d => moreDigits (16 * v + d) cs

def firstDigit : List Char → Option ℕ
  | [] => none
  | c :: cs => (hexDigit c).bind fun d => moreDigits d cs

/-- The digits after the sign, with or without a prefix. -/
def unsigned16 : List Char → Option ℕ
  | '0' :: 'x' :: '_' :: cs => firstDigit cs
  | '0' :: 'X' :: '_' :: cs => firstDigit cs
  | '0' :: 'x' :: cs => firstDigit cs
  | '0' :: 'X' :: cs => firstDigit cs
  | cs => firstDigit cs

/-- `int(s, 16)`; `none` is a `ValueError`. -/
def pyInt16 (s : List Char) : Option ℤ :=
  let s := ((s.dropWhile isPySpace).reverse.dropWhile isPySpace).reverse
  match s with
  | '-' :: cs => (unsigned16 cs).map fun n : ℕ => -(n : ℤ)
  | '+' :: cs => (unsigned16 cs).map fun n : ℕ => (n : ℤ)
  | cs => (unsigned16 cs).map fun n : ℕ => (n : ℤ)

/-- `row[key]` of a `csv.DictReader`: `none` is a `KeyError`, and a row that is too short
has `None` at its last names. -/
def dictGet (names row : List (List Char)) (key : List Char) : Option (Option (List Char)) :=
  if key ∈ names then some row[names.length - 1 - names.reverse.idxOf key]? else none

/-- The problems that are reported for a transfer. -/
def tripleProblems (off len dest : ℤ) : ℕ :=
  (if off + len > romSize then 1 else 0) +
    if ¬ (ramLo ≤ dest ∧ dest + len ≤ ramHi) then 1 else 0

/-- `int(row[key], 16)`. -/
def dictInt (names row : List (List Char)) (key : List Char) : Option ℤ := do
  pyInt16 (← (← dictGet names row key))

/-- One pass of the loop of `check`; `none` is an exception. -/
def checkRecord (names row : List (List Char)) : Option ℕ := do
  if (← dictGet names row "mode".toList) = some "DMA".toList then
    let off ← dictInt names row "cart_offset".toList
    let len ← dictInt names row "length".toList
    let dest ← dictInt names row "dest".toList
    return tripleProblems off len dest
  else return 0

/-- `check`, on the records after the first; empty ones are skipped by the reader. -/
def checkRecords (names : List (List Char)) : List (List (List Char)) → Option ℕ
  | [] => some 0
  | row :: rows =>
      if row = [] then checkRecords names rows
      else do return (← checkRecord names row) + (← checkRecords names rows)

/-- The problems that `main` counts in the file. -/
def checkCsv (text : List Char) : Option ℕ := do
  match ← readCsv text with
  | [] => return 0
  | names :: rows => checkRecords names rows

/-- The text of a file of ASCII characters. -/
def asText (bytes : List UInt8) : List Char := bytes.map fun b => Char.ofNat b.toNat

/-! What is written, as records. -/

def csvNames : List (List Char) :=
  ["cart_offset".toList, "length".toList, "dest".toList, "mode".toList]

def dmaRecord (d : ℕ × ℕ × ℕ) : List (List Char) :=
  ["0x".toList ++ hexLower08 d.1, "0x".toList ++ hexLower d.2.2,
    "0x".toList ++ hexLower08 d.2.1, "DMA".toList]

def pioRecord (off : ℕ) : List (List Char) :=
  ["0x".toList ++ hexLower08 off, "0x0".toList, "0x00000000".toList, "PIO".toList]

def csvRecords (r : Report) : List (List (List Char)) :=
  csvNames :: (r.log.dma.map dmaRecord ++ r.log.pio.map pioRecord)

section Digits

variable {n v : ℕ} {c : Char} {cs : List Char}

theorem hexDigit_digitChar : ∀ {d : ℕ}, d < 16 → hexDigit (Nat.digitChar d) = some d := by
  decide

theorem digitChar_ne_underscore : ∀ d < 16, Nat.digitChar d ≠ '_' := by
  decide

/-- The digits of a number are hexadecimal digits. -/
theorem mem_hexLower (hc : c ∈ hexLower n) : ∃ d < 16, c = Nat.digitChar d := by
  induction n using Nat.strong_induction_on with
  | _ n ih =>
      unfold hexLower at hc ih
      rcases Nat.lt_or_ge n 16 with hn | hn
      · rw [Nat.toDigits_of_lt_base hn, List.mem_singleton] at hc
        exact ⟨n, hn, hc⟩
      · rw [Nat.toDigits_of_base_le (by decide) hn, List.mem_append, List.mem_singleton] at hc
        rcases hc with hc | hc
        · exact ih (n / 16) (by omega) hc
        · exact ⟨n % 16, Nat.mod_lt n (by decide), hc⟩

theorem mem_hexLower08 (hc : c ∈ hexLower08 n) : ∃ d < 16, c = Nat.digitChar d := by
  rcases List.mem_append.1 hc with hc | hc
  · exact ⟨0, by decide, (List.mem_replicate.1 hc).2⟩
  · exact mem_hexLower hc

/-- Digits without underscores are read from the left. -/
theorem moreDigits_append (hcs : ∀ c ∈ cs, ∃ d < 16, c = Nat.digitChar d) (cs' : List Char) :
    moreDigits v (cs ++ cs') =
      moreDigits (cs.foldl (fun v c => 16 * v + (hexDigit c).getD 0) v) cs' := by
  induction cs generalizing v with
  | nil => rfl
  | cons c cs ih =>
      obtain ⟨d, hd, rfl⟩ := hcs c List.mem_cons_self
      have hne := digitChar_ne_underscore d hd
      rw [List.cons_append, moreDigits, hexDigit_digitChar hd, List.foldl_cons,
        hexDigit_digitChar hd]
      · exact ih fun c hc => hcs c (List.mem_cons_of_mem _ hc)
      · exact fun _ _ h => absurd h hne

/-- The value of a string of digits. -/
def digitsValue (cs : List Char) : ℕ := cs.foldl (fun v c => 16 * v + (hexDigit c).getD 0) 0

theorem digitsValue_hexLower (n : ℕ) : digitsValue (hexLower n) = n := by
  induction n using Nat.strong_induction_on with
  | _ n ih =>
      unfold hexLower digitsValue at ih ⊢
      rcases Nat.lt_or_ge n 16 with hn | hn
      · rw [Nat.toDigits_of_lt_base hn, List.foldl_cons, List.foldl_nil, hexDigit_digitChar hn]
        exact Nat.zero_add n
      · rw [Nat.toDigits_of_base_le (by decide) hn, List.foldl_append, ih (n / 16) (by omega),
          List.foldl_cons, List.foldl_nil, hexDigit_digitChar (Nat.mod_lt n (by decide))]
        exact Nat.div_add_mod n 16

theorem digitsValue_hexLower08 (n : ℕ) : digitsValue (hexLower08 n) = n := by
  have hzeros : ∀ k, (List.replicate k '0').foldl
      (fun v c => 16 * v + (hexDigit c).getD 0) 0 = 0 := by
    intro k
    induction k with
    | zero => rfl
    | succ k ih => exact ih
  rw [digitsValue, hexLower08, List.foldl_append, hzeros]
  exact digitsValue_hexLower n

theorem firstDigit_eq (hne : cs ≠ []) (hcs : ∀ c ∈ cs, ∃ d < 16, c = Nat.digitChar d) :
    firstDigit cs = some (digitsValue cs) := by
  cases cs with
  | nil => exact absurd rfl hne
  | cons c cs =>
      obtain ⟨d, hd, rfl⟩ := hcs c List.mem_cons_self
      have hmore := moreDigits_append (v := d)
        (fun c hc => hcs c (List.mem_cons_of_mem _ hc)) []
      rw [List.append_nil] at hmore
      rw [firstDigit, hexDigit_digitChar hd, Option.bind_some, hmore, digitsValue,
        List.foldl_cons, hexDigit_digitChar hd]
      simp [moreDigits]

/-- A number with its prefix is read back. -/
theorem pyInt16_prefixed (hne : cs ≠ []) (hcs : ∀ c ∈ cs, ∃ d < 16, c = Nat.digitChar d) :
    pyInt16 ("0x".toList ++ cs) = some (digitsValue cs : ℤ) := by
  have hspace : ∀ d < 16, isPySpace (Nat.digitChar d) = false := by decide
  have hfront : ("0x".toList ++ cs).dropWhile isPySpace = "0x".toList ++ cs := rfl
  have hback : ("0x".toList ++ cs).reverse.dropWhile isPySpace = ("0x".toList ++ cs).reverse := by
    rw [List.reverse_append]
    cases hrev : cs.reverse with
    | nil => exact absurd (List.reverse_eq_nil_iff.1 hrev) hne
    | cons c cs' =>
        have hc : c ∈ cs := List.mem_reverse.1 (hrev ▸ List.mem_cons_self)
        obtain ⟨d, hd, rfl⟩ := hcs c hc
        rw [List.cons_append, List.dropWhile_cons_of_neg (by simp [hspace d hd])]
  unfold pyInt16
  rw [hfront, hback, List.reverse_reverse]
  have hunsigned : unsigned16 ("0x".toList ++ cs) = some (digitsValue cs) := by
    rw [← firstDigit_eq hne hcs]
    cases cs with
    | nil => exact absurd rfl hne
    | cons c cs =>
        obtain ⟨d, hd, rfl⟩ := hcs c List.mem_cons_self
        have hne' := digitChar_ne_underscore d hd
        show unsigned16 ('0' :: 'x' :: Nat.digitChar d :: cs) = _
        rw [unsigned16]
        exact fun _ h => hne' (List.cons.inj h).1
  show (unsigned16 ("0x".toList ++ cs)).map _ = _
  rw [hunsigned]
  rfl

end Digits

section Records

variable {r : Report} {d : ℕ × ℕ × ℕ} {off : ℕ}

theorem hexLower08_ne_nil (n : ℕ) : hexLower08 n ≠ [] := fun h =>
  Nat.toDigits_ne_nil (List.append_eq_nil_iff.1 h).2

theorem dmaRow_eq (d : ℕ × ℕ × ℕ) : dmaRow d = csvLine (dmaRecord d) := by
  simp [dmaRow, dmaRecord, csvLine, List.intercalate_cons_cons]

theorem pioRow_eq (off : ℕ) : pioRow off = csvLine (pioRecord off) := by
  simp [pioRow, pioRecord, csvLine, List.intercalate_cons_cons]

/-- The characters of the map. -/
def csvChars : List Char :=
  ['0', '1', '2', '3', '4', '5', '6', '7', '8', '9', 'a', 'b', 'c', 'd', 'e', 'f', '_', 'g', 'h',
    'l', 'm', 'n', 'o', 'r', 's', 't', 'x', 'A', 'D', 'I', 'M', 'O', 'P']

theorem mem_csvChars_digit {d : ℕ} (hd : d < 16) : Nat.digitChar d ∈ csvChars := by
  interval_cases d <;> simp [csvChars, Nat.digitChar]

theorem csvChars_plain : ∀ c ∈ csvChars, PlainChar c ∧ c.toNat < 128 := by
  have hall : csvChars.all (fun c => decide (PlainChar c ∧ c.toNat < 128)) = true := by decide
  exact fun c hc => of_decide_eq_true (List.all_eq_true.1 hall c hc)

theorem mem_csvChars_prefixed {cs : List Char} (hcs : ∀ c ∈ cs, ∃ d < 16, c = Nat.digitChar d) :
    "0x".toList ++ cs ≠ [] ∧ ∀ c ∈ "0x".toList ++ cs, c ∈ csvChars := by
  refine ⟨by simp, fun c hc => ?_⟩
  rcases List.mem_append.1 hc with hc | hc
  · have hall : ∀ c ∈ "0x".toList, c ∈ csvChars := by simp [csvChars]
    exact hall c hc
  · obtain ⟨d, hd, rfl⟩ := hcs c hc
    exact mem_csvChars_digit hd

/-- What the map is made of. -/
theorem mem_csvRecords {row : List (List Char)} (hrow : row ∈ csvRecords r) :
    row ≠ [] ∧ ∀ g ∈ row, g ≠ [] ∧ ∀ c ∈ g, c ∈ csvChars := by
  have hlit : ∀ g ∈ csvNames ++ ["DMA".toList, "0x0".toList, "0x00000000".toList, "PIO".toList],
      g ≠ [] ∧ ∀ c ∈ g, c ∈ csvChars := by
    simp [csvNames, csvChars]
  rcases List.mem_cons.1 hrow with rfl | hrow
  · exact ⟨by decide, fun g hg => hlit g (List.mem_append_left _ hg)⟩
  rcases List.mem_append.1 hrow with hrow | hrow
  · obtain ⟨d, -, rfl⟩ := List.mem_map.1 hrow
    refine ⟨by simp [dmaRecord], fun g hg => ?_⟩
    simp only [dmaRecord, List.mem_cons, List.not_mem_nil, or_false] at hg
    rcases hg with rfl | rfl | rfl | rfl
    · exact mem_csvChars_prefixed fun _ => mem_hexLower08
    · exact mem_csvChars_prefixed fun _ => mem_hexLower
    · exact mem_csvChars_prefixed fun _ => mem_hexLower08
    · exact hlit _ (by simp)
  · obtain ⟨off, -, rfl⟩ := List.mem_map.1 hrow
    refine ⟨by simp [pioRecord], fun g hg => ?_⟩
    simp only [pioRecord, List.mem_cons, List.not_mem_nil, or_false] at hg
    rcases hg with rfl | rfl | rfl | rfl
    · exact mem_csvChars_prefixed fun _ => mem_hexLower08
    · exact hlit _ (by simp)
    · exact hlit _ (by simp)
    · exact hlit _ (by simp)

/-- The text of the map. -/
def csvText (r : Report) : List Char := (csvRecords r).flatMap csvLine

theorem csvText_eq (r : Report) : csvText r = "cart_offset,length,dest,mode\n".toList ++
    r.log.dma.flatMap dmaRow ++ r.log.pio.flatMap pioRow := by
  have hnames : csvLine csvNames = "cart_offset,length,dest,mode\n".toList := by decide +kernel
  have hdma : dmaRow = fun d => csvLine (dmaRecord d) := funext dmaRow_eq
  have hpio : pioRow = fun off => csvLine (pioRecord off) := funext pioRow_eq
  rw [csvText, csvRecords, List.flatMap_cons, List.flatMap_append, List.flatMap_map,
    List.flatMap_map, hnames, List.append_assoc, hdma, hpio]

/-- All of the text is ASCII. -/
theorem ascii_csvText {c : Char} (hc : c ∈ csvText r) : c.toNat < 128 := by
  obtain ⟨row, hrow, hc⟩ := List.mem_flatMap.1 hc
  rcases mem_csvLine hc with rfl | rfl | ⟨g, hg, hc⟩
  · decide
  · decide
  · exact (csvChars_plain c (((mem_csvRecords hrow).2 g hg).2 c hc)).2

/-- What is written is the text, read as a file. -/
theorem asText_writeCsv (r : Report) : asText (writeCsv r) = csvText r := by
  have hchar : ∀ c ∈ csvText r, Char.ofNat (UInt8.ofNat c.toNat).toNat = c := by
    intro c hc
    have hlt : c.toNat < UInt8.size := Nat.lt_trans (ascii_csvText hc) (by decide)
    rw [UInt8.toNat_ofNat_of_lt' hlt]
    exact Char.ofNat_toNat c
  have hwrite : writeCsv r = (csvText r).map fun c => UInt8.ofNat c.toNat := by
    rw [csvText_eq]
    rfl
  have hback := (List.map_congr_left hchar).trans (List.map_id' (csvText r))
  rw [asText, hwrite, List.map_map]
  exact hback

/-- The map is read back as it was written. -/
theorem readCsv_writeCsv (r : Report) :
    readCsv (asText (writeCsv r)) = some (csvRecords r) := by
  rw [asText_writeCsv]
  refine readCsv_csvLines fun row hrow => ?_
  obtain ⟨hne, hall⟩ := mem_csvRecords hrow
  exact ⟨hne, fun g hg => ⟨(hall g hg).1, fun c hc => (csvChars_plain c ((hall g hg).2 c hc)).1⟩⟩

/-- The columns of a record. -/
theorem dictGet_csvNames (a l d m : List Char) :
    dictGet csvNames [a, l, d, m] "cart_offset".toList = some (some a) ∧
      dictGet csvNames [a, l, d, m] "length".toList = some (some l) ∧
      dictGet csvNames [a, l, d, m] "dest".toList = some (some d) ∧
      dictGet csvNames [a, l, d, m] "mode".toList = some (some m) := by
  have hcolumn : ∀ {key : List Char} {i : ℕ}, key ∈ csvNames →
      csvNames.length - 1 - csvNames.reverse.idxOf key = i →
      dictGet csvNames [a, l, d, m] key = some [a, l, d, m][i]? := by
    intro key i hkey hi
    rw [dictGet, if_pos hkey, hi]
  exact ⟨hcolumn (i := 0) (by decide) (by decide), hcolumn (i := 1) (by decide) (by decide),
    hcolumn (i := 2) (by decide) (by decide), hcolumn (i := 3) (by decide) (by decide)⟩

theorem tripleProblems_eq (off len dest : ℕ) :
    tripleProblems off len dest = rowProblems ⟨off, len, dest, "DMA"⟩ := by
  have hoff : ((off : ℤ) + len > (romSize : ℤ)) ↔ off + len > romSize := by omega
  have hdest : ((ramLo : ℤ) ≤ dest ∧ (dest : ℤ) + len ≤ (ramHi : ℤ)) ↔
      ramLo ≤ dest ∧ dest + len ≤ ramHi := by omega
  unfold tripleProblems rowProblems
  simp only [hoff, hdest, ne_eq, not_true_eq_false, if_false]

theorem checkRecord_dma (d : ℕ × ℕ × ℕ) :
    checkRecord csvNames (dmaRecord d) = some (rowProblems ⟨d.1, d.2.2, d.2.1, "DMA"⟩) := by
  obtain ⟨hoff, hlen, hdest, hmode⟩ := dictGet_csvNames ("0x".toList ++ hexLower08 d.1)
    ("0x".toList ++ hexLower d.2.2) ("0x".toList ++ hexLower08 d.2.1) "DMA".toList
  have hnumber : ∀ n, pyInt16 ("0x".toList ++ hexLower08 n) = some (n : ℤ) := fun n => by
    rw [pyInt16_prefixed (hexLower08_ne_nil n) fun _ => mem_hexLower08, digitsValue_hexLower08]
  have hlength : ∀ n, pyInt16 ("0x".toList ++ hexLower n) = some (n : ℤ) := fun n => by
    have hne : hexLower n ≠ [] := Nat.toDigits_ne_nil
    rw [pyInt16_prefixed hne fun _ => mem_hexLower, digitsValue_hexLower]
  rw [← tripleProblems_eq, checkRecord, dmaRecord, dictInt, dictInt, dictInt, hoff, hlen, hdest,
    hmode]
  simp only [Option.bind_eq_bind, Option.bind_some, if_pos, hnumber, hlength]
  rfl

theorem checkRecord_pio (off : ℕ) : checkRecord csvNames (pioRecord off) = some 0 := by
  obtain ⟨-, -, -, hmode⟩ := dictGet_csvNames ("0x".toList ++ hexLower08 off) "0x0".toList
    "0x00000000".toList "PIO".toList
  have hne : some "PIO".toList ≠ some "DMA".toList := by decide
  rw [checkRecord, pioRecord, hmode]
  simp only [Option.bind_eq_bind, Option.bind_some, if_neg hne]
  rfl

/-- The transfers of the report, as rows. -/
def dmaRows (r : Report) : List Row :=
  r.log.dma.map fun d => ⟨d.1, d.2.2, d.2.1, "DMA"⟩

theorem checkRecords_pio (pio : List ℕ) :
    checkRecords csvNames (pio.map pioRecord) = some 0 := by
  induction pio with
  | nil => rfl
  | cons off pio ih =>
      have hne : pioRecord off ≠ [] := by simp [pioRecord]
      rw [List.map_cons, checkRecords, if_neg hne, checkRecord_pio, ih]
      rfl

/-- The count over the file is that over the transfers. -/
theorem checkCsv_writeCsv (r : Report) :
    checkCsv (asText (writeCsv r)) = some (checkTriples (dmaRows r)) := by
  have hrecords : ∀ dma : List (ℕ × ℕ × ℕ),
      checkRecords csvNames (dma.map dmaRecord ++ r.log.pio.map pioRecord) =
        some (checkTriples (dma.map fun d => ⟨d.1, d.2.2, d.2.1, "DMA"⟩)) := by
    intro dma
    induction dma with
    | nil => exact checkRecords_pio r.log.pio
    | cons d dma ih =>
        have hne : dmaRecord d ≠ [] := by simp [dmaRecord]
        rw [List.map_cons, List.cons_append, checkRecords, if_neg hne, checkRecord_dma, ih]
        rfl
  rw [checkCsv, readCsv_writeCsv]
  exact hrecords r.log.dma

end Records

section Capture

variable {word : Char → Bool} {ranges : Ranges} {files : List (List Char)} {r : Report}

/-- The transfers of the report are the ones that lines of the logs record. -/
theorem mem_dma_iff_line (h : parseFiles word ranges files = some r) (src dest len : ℕ) :
    (src, dest, len) ∈ r.log.dma ↔ ∃ line ∈ splitlines (['\n'].intercalate files),
      parseLine word line = some (some (.dma src dest len)) := by
  obtain ⟨-, rfl⟩ := evenData_of_parseText h
  rw [report_dma, List.mem_mergeSort, recorded, mem_dma_foldl, mem_entries_iff]
  exact or_iff_right List.not_mem_nil

/-- A DMA row is without a problem when it lies in the ROM and in main RAM. -/
theorem rowProblems_dma_eq_zero_iff (src dest len : ℕ) :
    rowProblems ⟨src, len, dest, "DMA"⟩ = 0 ↔
      src + len ≤ romSize ∧ ramLo ≤ dest ∧ dest + len ≤ ramHi := by
  unfold rowProblems
  rw [if_neg (by simp), Nat.add_eq_zero_iff]
  refine and_congr ⟨fun h => ?_, fun h => if_neg (by simpa using h)⟩
    ⟨fun h => ?_, fun h => if_neg (not_not.2 h)⟩
  · by_contra hlt
    rw [if_pos (by simpa using hlt)] at h
    exact absurd h (by decide)
  · by_contra hlt
    rw [if_pos hlt] at h
    exact absurd h (by decide)

/-- The count of the map is zero when that of every row is. -/
theorem checkCsv_eq_zero_iff (r : Report) : checkCsv (asText (writeCsv r)) = some 0 ↔
    ∀ d ∈ r.log.dma, rowProblems ⟨d.1, d.2.2, d.2.1, "DMA"⟩ = 0 := by
  rw [checkCsv_writeCsv, Option.some_inj, dmaRows]
  constructor
  · exact fun hcheck d hd => rowProblems_of_check hcheck (List.mem_map_of_mem hd)
  · intro hall
    generalize r.log.dma = dma at hall
    induction dma with
    | nil => rfl
    | cons d dma ih =>
        rw [List.map_cons, checkTriples, hall d List.mem_cons_self,
          ih fun e he => hall e (List.mem_cons_of_mem d he)]

/-- From the capture to the shim. The map that is written of the logs is read back as its
transfers, and `check_triples` counts no problem in it exactly when every transfer that a
line of the logs records lies in the ROM and in main RAM. The shim then refuses none of
them but the empty ones and those that reach its home. -/
theorem capture_servable (h : parseFiles word ranges files = some r) :
    readCsv (asText (writeCsv r)) = some (csvRecords r) ∧
    (checkCsv (asText (writeCsv r)) = some 0 ↔
      ∀ line ∈ splitlines (['\n'].intercalate files), ∀ src dest len,
        parseLine word line = some (some (.dma src dest len)) →
          src + len ≤ romSize ∧ ramLo ≤ dest ∧ dest + len ≤ ramHi) ∧
    (checkCsv (asText (writeCsv r)) = some 0 →
      ∀ line ∈ splitlines (['\n'].intercalate files), ∀ src dest len,
        parseLine word line = some (some (.dma src dest len)) →
          ∀ (b : Build) (W : World Memory.Mem) (s : State Memory.Mem),
            Programmed s.mem ⟨src, len, dest, "DMA"⟩ →
              (NotRefused b W s ↔ len ≠ 0 ∧ dest + len ≤ 0x0cfc0000)) := by
  refine ⟨readCsv_writeCsv r, ?_, fun hcheck line hline src dest len hparse b W s hprog => ?_⟩
  · rw [checkCsv_eq_zero_iff]
    constructor
    · intro hall line hline src dest len hparse
      exact (rowProblems_dma_eq_zero_iff src dest len).1
        (hall (src, dest, len) ((mem_dma_iff_line h src dest len).2 ⟨line, hline, hparse⟩))
    · rintro hall ⟨src, dest, len⟩ hd
      obtain ⟨line, hline, hparse⟩ := (mem_dma_iff_line h src dest len).1 hd
      exact (rowProblems_dma_eq_zero_iff src dest len).2 (hall line hline src dest len hparse)
  · have hd := (mem_dma_iff_line h src dest len).2 ⟨line, hline, hparse⟩
    have hproblems := (checkCsv_eq_zero_iff r).1 hcheck (src, dest, len) hd
    obtain ⟨hrom, -, -⟩ := bounds_of_rowProblems hproblems rfl
    have hsize : cartSize < 2 ^ 28 := by decide
    have hoff : src < 2 ^ 28 := by
      have : src + len ≤ cartSize := hrom
      omega
    rw [notRefused_iff, hprog.requestAt hoff, not_bad_iff hproblems rfl]

/-- A log of one transfer, and a noise line. -/
def transferLog : List Char :=
  "boot\nCARTDMA src=00800000 dest=0c000000 len=800\n".toList

/-- The transfer of the sample log is in the map, and the shim serves it. -/
theorem capture_servable_sample : ∃ r,
    parseFiles (fun _ => true) ⟨[], [], []⟩ [transferLog] = some r ∧
    readCsv (asText (writeCsv r)) = some (csvRecords r) ∧
    checkCsv (asText (writeCsv r)) = some 0 ∧
    NotRefused .gdi Devices.absent.world (programFor 0x800000 0x800 0x0c000000) := by
  have hlines : splitlines (['\n'].intercalate [transferLog]) =
      ["boot".toList, "CARTDMA src=00800000 dest=0c000000 len=800".toList] := by decide +kernel
  have hboot : parseLine (fun _ => true) "boot".toList = some none := by decide +kernel
  have hdma : parseLine (fun _ => true) "CARTDMA src=00800000 dest=0c000000 len=800".toList =
      some (some (.dma 0x800000 0x0c000000 0x800)) := by decide +kernel
  have heven : ∀ line ∈ splitlines (['\n'].intercalate [transferLog]), EvenData line := by
    intro line hline
    rw [hlines] at hline
    have hparses : (∃ e, parseLine (fun _ => true) line = some e) → EvenData line :=
      exists_parseLine_iff.1
    refine hparses ?_
    simp only [List.mem_cons, List.not_mem_nil, or_false] at hline
    rcases hline with rfl | rfl
    · exact ⟨_, hboot⟩
    · exact ⟨_, hdma⟩
  obtain ⟨r, hrun⟩ : ∃ r, parseFiles (fun _ => true) ⟨[], [], []⟩ [transferLog] = some r :=
    ⟨_, parseText_of_evenData heven⟩
  obtain ⟨hread, hcount, hserve⟩ := capture_servable hrun
  have hzero := hcount.2 ?_
  · refine ⟨r, hrun, hread, hzero, ?_⟩
    refine (hserve hzero _ (hlines ▸ by simp) 0x800000 0x0c000000 0x800 hdma .gdi _ _
      ⟨by decide +kernel, by decide +kernel, by decide +kernel, by decide +kernel⟩).2 ?_
    decide
  · intro line hline src dest len hparse
    rw [hlines] at hline
    simp only [List.mem_cons, List.not_mem_nil, or_false] at hline
    rcases hline with rfl | rfl
    · cases hboot.symm.trans hparse
    · cases hdma.symm.trans hparse
      decide

end Capture

end Cfp2Dreamcast
