import Cfp2Dreamcast.Text.Pattern

/-!
# The capture log

`parse_cart_log.py` reads a log line by line: a line is tried against the known
formats one after the other, and one that matches none is skipped. The formats match
a prefix of the line. `none` stands for a `ValueError`; the class of `\w` is the
parameter `word`.
-/

namespace Cfp2Dreamcast

open Text

/-- The characters at which `str.splitlines` breaks a line. -/
def lineBreaks : List Char :=
  ['\n', '\x0b', '\x0c', '\r', '\x1c', '\x1d', '\x1e', '\u0085', '\u2028', '\u2029']

/-- `splitlines`, with the line read so far in reverse. -/
def splitlinesFrom (line : List Char) : List Char → List (List Char)
  | [] => if line = [] then [] else [line.reverse]
  | '\r' :: '\n' :: text => line.reverse :: splitlinesFrom [] text
  | c :: text =>
      if c ∈ lineBreaks then line.reverse :: splitlinesFrom [] text
      else splitlinesFrom (c :: line) text

def splitlines (text : List Char) : List (List Char) := splitlinesFrom [] text

/-- The value of a hexadecimal digit. -/
def hexDigit (c : Char) : Option ℕ :=
  if '0' ≤ c ∧ c ≤ '9' then some (c.toNat - '0'.toNat)
  else if 'a' ≤ c ∧ c ≤ 'f' then some (c.toNat - 'a'.toNat + 10)
  else if 'A' ≤ c ∧ c ≤ 'F' then some (c.toNat - 'A'.toNat + 10)
  else none

/-- `[0-9a-fA-F]`. -/
def isHex (c : Char) : Bool := (hexDigit c).isSome

/-- `int(g, 16)` of a string of hexadecimal digits. -/
def int16 (g : List Char) : Option ℕ :=
  if g = [] then none else g.foldlM (fun v c => (hexDigit c).map (16 * v + ·)) 0

/-- `bytes.fromhex` of a string without spaces: two digits a byte. -/
def fromHex : List Char → Option (List UInt8)
  | [] => some []
  | [_] => none
  | a :: b :: g => do
      let x ← hexDigit a
      let y ← hexDigit b
      let bs ← fromHex g
      return UInt8.ofNat (16 * x + y) :: bs

def hexRun : Item := .many isHex

/-! The line formats. -/

def dmaFormat : Pattern :=
  [.lit "CARTDMA src=".toList, hexRun, .lit " dest=".toList, hexRun, .lit " len=".toList, hexRun]
def dmaPcFormat : Pattern :=
  [.lit "CARTDMAPC pc=".toList, hexRun, .lit " sp=".toList, hexRun]
def maPcFormat : Pattern :=
  [.lit "MAPLEPC cmd=86 sub=".toList, hexRun, .lit " pc=".toList, hexRun]
def biosFormat : Pattern := [.lit "BIOSEXEC pc=".toList, hexRun]
def pioFormat : Pattern := [.lit "CARTPIO offset=".toList, hexRun]
def wmFormat (word : Char → Bool) : Pattern :=
  [.lit "WATERMARK region=".toList, .many word, .lit " used=".toList, hexRun,
    .lit " size=".toList, hexRun]
def serFormat : Pattern := [.lit "SERIALPOKE addr=".toList, hexRun, .lit " data=".toList, hexRun]
def shimFormat : Pattern := [.lit "SHIMWATCH addr=".toList, hexRun]
def mieFormat : Pattern :=
  [.lit "MIERESP sub=".toList, hexRun, .lit " addr=".toList, hexRun, .lit " data=".toList, hexRun]

/-- What one line records. -/
inductive LogEntry where
  | dma (src dest len : ℕ)
  | dmaPc (pc sp : ℕ)
  | maplePc (sub pc : ℕ)
  | biosExec (pc : ℕ)
  | pio (offset : ℕ)
  | watermark (region : List Char) (used : ℕ)
  | serial (addr data : ℕ)
  | shimwatch (addr : ℕ)
  | mieresp (sub addr : ℕ) (data : List UInt8)
  deriving DecidableEq

/-- `m.group(i)`. -/
def group (gs : List (List Char)) (i : ℕ) : List Char := gs.getD (i - 1) []

/-- One pass of the loop body: the entry of the line, if any. -/
def parseLine (word : Char → Bool) (line : List Char) : Option (Option LogEntry) :=
  match match? dmaFormat line with
  | some gs => do
      return some (.dma (← int16 (group gs 1)) (← int16 (group gs 2)) (← int16 (group gs 3)))
  | none =>
  match match? dmaPcFormat line with
  | some gs => do return some (.dmaPc (← int16 (group gs 1)) (← int16 (group gs 2)))
  | none =>
  match match? maPcFormat line with
  | some gs => do return some (.maplePc (← int16 (group gs 1)) (← int16 (group gs 2)))
  | none =>
  match match? biosFormat line with
  | some gs => do return some (.biosExec (← int16 (group gs 1)))
  | none =>
  match match? pioFormat line with
  | some gs => do return some (.pio (← int16 (group gs 1)))
  | none =>
  match match? (wmFormat word) line with
  | some gs => do
      let used ← int16 (group gs 2)
      let _ ← int16 (group gs 3)
      return some (.watermark (group gs 1) used)
  | none =>
  match match? serFormat line with
  | some gs => do return some (.serial (← int16 (group gs 1)) (← int16 (group gs 2)))
  | none =>
  match match? shimFormat line with
  | some gs => do return some (.shimwatch (← int16 (group gs 1)))
  | none =>
  match match? mieFormat line with
  | some gs => do
      return some
        (.mieresp (← int16 (group gs 1)) (← int16 (group gs 2)) (← fromHex (group gs 3)))
  | none => some none

/-- What the lines read so far recorded. -/
structure CartLog where
  dma : List (ℕ × ℕ × ℕ)
  pio : List ℕ
  watermarks : List (List Char × ℕ)
  serial : List (ℕ × ℕ)
  cartdmaPc : List (ℕ × ℕ)
  maplePc : List (ℕ × ℕ)
  biosExec : List ℕ
  shimwatch : List ℕ
  mieresp : List (ℕ × ℕ × List UInt8)
  deriving DecidableEq

def CartLog.empty : CartLog := ⟨[], [], [], [], [], [], [], [], []⟩

/-- `watermarks[region] = max(watermarks.get(region, 0), used)`. -/
def raiseMark (region : List Char) (used : ℕ) : List (List Char × ℕ) → List (List Char × ℕ)
  | [] => [(region, used)]
  | (r, v) :: marks =>
      if r = region then (r, max v used) :: marks else (r, v) :: raiseMark region used marks

def CartLog.add (log : CartLog) : LogEntry → CartLog
  | .dma src dest len =>
      if (src, dest, len) ∈ log.dma then log
      else { log with dma := log.dma ++ [(src, dest, len)] }
  | .dmaPc pc sp => { log with cartdmaPc := log.cartdmaPc ++ [(pc, sp)] }
  | .maplePc sub pc => { log with maplePc := log.maplePc ++ [(sub, pc)] }
  | .biosExec pc => { log with biosExec := log.biosExec ++ [pc] }
  | .pio offset =>
      if offset ∈ log.pio then log else { log with pio := log.pio ++ [offset] }
  | .watermark region used => { log with watermarks := raiseMark region used log.watermarks }
  | .serial addr data => { log with serial := log.serial ++ [(addr, data)] }
  | .shimwatch addr => { log with shimwatch := log.shimwatch ++ [addr] }
  | .mieresp sub addr data => { log with mieresp := log.mieresp ++ [(sub, addr, data)] }

/-- A verdict of the report. -/
structure Check where
  name : String
  ok : Bool
  detail : String
  deriving DecidableEq

/-- `_checks`. -/
def dmaChecks (dma : List (ℕ × ℕ × ℕ)) : List Check :=
  [⟨"dest_in_ram", !dma.isEmpty && dma.all fun d => 0x0c000000 ≤ d.2.1 && d.2.1 < 0x0e000000,
      "every DMA dest in main RAM 0x0c000000-0x0dffffff"⟩,
    ⟨"len_aligned_32", !dma.isEmpty && dma.all fun d => d.2.2 % 0x20 == 0,
      "every DMA len is a multiple of 0x20"⟩,
    ⟨"beyond_boot_read", dma.any fun d => 0x100000 ≤ d.1,
      "at least one cart read with src >= 0x100000 (runtime streaming)"⟩]

/-- `_shim_checks`. -/
def shimChecks (shimwatch : List ℕ) : List Check :=
  [⟨"shim_home_clean", shimwatch.isEmpty,
    "zero SHIMWATCH lines (game never writes the planned shim home 0x0cfc0000+)"⟩]

/-- `_in`, on the physical addresses. -/
def inRanges (ranges : List (ℕ × ℕ)) (pc : ℕ) : Bool :=
  ranges.any fun r =>
    r.1 &&& 0x1fffffff ≤ pc &&& 0x1fffffff && pc &&& 0x1fffffff ≤ r.2 &&& 0x1fffffff

/-- The code ranges on the command line; one that is not given is empty. -/
structure Ranges where
  cartFn : List (ℕ × ℕ)
  inputFn : List (ℕ × ℕ)
  eepromFn : List (ℕ × ℕ)

/-- The addresses of the calls with these subcommands. -/
def pcsOf (maplePc : List (ℕ × ℕ)) (subs : List ℕ) : List ℕ :=
  (maplePc.filter fun m => m.1 ∈ subs).map Prod.snd

/-- `max(sps) - min(sps)`, and 0 without any. -/
def spSpread : List ℕ → ℕ
  | [] => 0
  | sp :: sps => sps.foldl max sp - sps.foldl min sp

/-- `_pc_checks`. -/
def pcChecks (log : CartLog) (ranges : Ranges) : List Check :=
  let inputPcs := pcsOf log.maplePc [0x15]
  let eepromPcs := pcsOf log.maplePc [0x01, 0x03, 0x0b]
  let sps := log.cartdmaPc.map Prod.snd
  [⟨"no_bios_exec", log.biosExec.isEmpty, "zero BIOSEXEC lines (no BIOS call after entry, §8-3)"⟩]
  ++ (if ranges.cartFn ≠ [] ∧ log.cartdmaPc ≠ [] then
      [⟨"dma_pc_in_cart_fn", log.cartdmaPc.all fun d => inRanges ranges.cartFn d.1,
        "every CARTDMAPC pc inside the static cart-read fn"⟩] else [])
  ++ (if ranges.inputFn ≠ [] ∧ inputPcs ≠ [] then
      [⟨"input_pc_in_input_fn", inputPcs.all (inRanges ranges.inputFn),
        "every input-poll (sub 0x15) pc inside the static input fn"⟩] else [])
  ++ [⟨"eeprom_seen",
      !eepromPcs.isEmpty &&
        (ranges.eepromFn.isEmpty || eepromPcs.all (inRanges ranges.eepromFn)),
      "≥1 EEPROM op (sub 0x01/0x03/0x0B) captured" ++
        if ranges.eepromFn.isEmpty then "" else " and inside the static eeprom fn"⟩,
    ⟨"sp_consistent", spSpread sps ≤ 0x100000,
      "logged SPs cluster within 1 MB (a single stable stack region)"⟩]

/-- What `parse_text` returns: the log with the transfers and seeks sorted, and the
verdicts. -/
structure Report where
  log : CartLog
  checks : List Check
  deriving DecidableEq

def report (log : CartLog) (ranges : Ranges) : Report :=
  let dma := log.dma.mergeSort fun d e => d.1 < e.1 || d.1 == e.1 && d.2.1 ≤ e.2.1
  { log := { log with dma := dma, pio := log.pio.mergeSort (· ≤ ·) }
    checks := dmaChecks dma ++ pcChecks log ranges ++ shimChecks log.shimwatch }

/-- The loop over the lines. -/
def parseLines (word : Char → Bool) (log : CartLog) : List (List Char) → Option CartLog
  | [] => some log
  | line :: lines => do
      match ← parseLine word line with
      | some e => parseLines word (log.add e) lines
      | none => parseLines word log lines

/-- `parse_text`. -/
def parseText (word : Char → Bool) (ranges : Ranges) (text : List Char) : Option Report :=
  (parseLines word .empty (splitlines text)).map (report · ranges)

section Lines

variable {word : Char → Bool} {line : List Char}

theorem hexDigit_of_isHex {c : Char} (h : isHex c = true) : ∃ d, hexDigit c = some d :=
  Option.isSome_iff_exists.1 h

theorem exists_int16 {g : List Char} (h : Run isHex g) : ∃ v, int16 g = some v := by
  have hfold : ∀ (g : List Char) (v : ℕ), (∀ c ∈ g, isHex c = true) →
      ∃ w, g.foldlM (fun v c => (hexDigit c).map (16 * v + ·)) v = some w := by
    intro g
    induction g with
    | nil => exact fun v _ => ⟨v, rfl⟩
    | cons c g ih =>
        intro v hg
        obtain ⟨d, hd⟩ := hexDigit_of_isHex (hg c List.mem_cons_self)
        obtain ⟨w, hw⟩ := ih (16 * v + d) fun c' hc' => hg c' (List.mem_cons_of_mem c hc')
        exact ⟨w, by rw [List.foldlM_cons, hd]; exact hw⟩
  rw [int16, if_neg h.1]
  exact hfold g 0 h.2

/-- `bytes.fromhex` accepts digits exactly in pairs. -/
theorem exists_fromHex_iff {g : List Char} (h : ∀ c ∈ g, isHex c = true) :
    (∃ bs, fromHex g = some bs) ↔ g.length % 2 = 0 := by
  induction g using fromHex.induct with
  | case1 => simp [fromHex]
  | case2 c => simp [fromHex]
  | case3 a b g ih =>
      obtain ⟨x, hx⟩ := hexDigit_of_isHex (h a (by simp))
      obtain ⟨y, hy⟩ := hexDigit_of_isHex (h b (by simp))
      have hg := ih fun c hc => h c (by simp [hc])
      have hlen : (a :: b :: g).length % 2 = g.length % 2 := by
        rw [List.length_cons, List.length_cons]
        omega
      rw [hlen, ← hg, fromHex, hx, hy]
      constructor
      · rintro ⟨bs, hbs⟩
        cases hrest : fromHex g with
        | none =>
            rw [hrest] at hbs
            cases hbs
        | some bs' => exact ⟨bs', rfl⟩
      · rintro ⟨bs, hbs⟩
        rw [hbs]
        exact ⟨_, rfl⟩

/-- Formats that start differently do not match the same line. -/
theorem not_both_match {s s' : List Char} {p p' : Pattern} {gs gs' : List (List Char)}
    (h : match? (.lit s :: p) line = some gs) (h' : match? (.lit s' :: p') line = some gs')
    (hs : ¬ s <+: s' ∧ ¬ s' <+: s) : False :=
  (List.prefix_or_prefix_of_prefix (prefix_of_match? h) (prefix_of_match? h')).elim hs.1 hs.2

/-- The line is no MIE reply with half a byte at its end. -/
def EvenData (line : List Char) : Prop :=
  ∀ gs, match? mieFormat line = some gs → (group gs 3).length % 2 = 0

/-- The digits that a format captures are a number. -/
theorem exists_int16_group {p : Pattern} {gs : List (List Char)} (h : match? p line = some gs)
    {i : ℕ} (hi : (classes p)[i - 1]? = some isHex) : ∃ v, int16 (group gs i) = some v :=
  exists_int16 (run_group h hi)

/-- A line raises only when it is an MIE reply with half a byte at its end. -/
theorem exists_parseLine_iff : (∃ e, parseLine word line = some e) ↔ EvenData line := by
  have hother : ∀ {s : List Char} {p : Pattern} {gs : List (List Char)} {P : Prop},
      match? (.lit s :: p) line = some gs →
      (¬ s <+: "MIERESP sub=".toList ∧ ¬ "MIERESP sub=".toList <+: s) → P →
      (P ↔ EvenData line) := fun h hs hP =>
    iff_of_true hP fun _ h' => (not_both_match h h' hs).elim
  unfold parseLine
  split
  · next gs h =>
    obtain ⟨a, ha⟩ := exists_int16_group h (i := 1) rfl
    obtain ⟨b, hb⟩ := exists_int16_group h (i := 2) rfl
    obtain ⟨c, hc⟩ := exists_int16_group h (i := 3) rfl
    rw [ha, hb, hc]
    exact hother h (by decide) ⟨_, rfl⟩
  split
  · next gs h =>
    obtain ⟨a, ha⟩ := exists_int16_group h (i := 1) rfl
    obtain ⟨b, hb⟩ := exists_int16_group h (i := 2) rfl
    rw [ha, hb]
    exact hother h (by decide) ⟨_, rfl⟩
  split
  · next gs h =>
    obtain ⟨a, ha⟩ := exists_int16_group h (i := 1) rfl
    obtain ⟨b, hb⟩ := exists_int16_group h (i := 2) rfl
    rw [ha, hb]
    exact hother h (by decide) ⟨_, rfl⟩
  split
  · next gs h =>
    obtain ⟨a, ha⟩ := exists_int16_group h (i := 1) rfl
    rw [ha]
    exact hother h (by decide) ⟨_, rfl⟩
  split
  · next gs h =>
    obtain ⟨a, ha⟩ := exists_int16_group h (i := 1) rfl
    rw [ha]
    exact hother h (by decide) ⟨_, rfl⟩
  split
  · next gs h =>
    obtain ⟨b, hb⟩ := exists_int16_group h (i := 2) rfl
    obtain ⟨c, hc⟩ := exists_int16_group h (i := 3) rfl
    rw [hb, hc]
    exact hother h (by decide) ⟨_, rfl⟩
  split
  · next gs h =>
    obtain ⟨a, ha⟩ := exists_int16_group h (i := 1) rfl
    obtain ⟨b, hb⟩ := exists_int16_group h (i := 2) rfl
    rw [ha, hb]
    exact hother h (by decide) ⟨_, rfl⟩
  split
  · next gs h =>
    obtain ⟨a, ha⟩ := exists_int16_group h (i := 1) rfl
    rw [ha]
    exact hother h (by decide) ⟨_, rfl⟩
  split
  · next gs h =>
    obtain ⟨a, ha⟩ := exists_int16_group h (i := 1) rfl
    obtain ⟨b, hb⟩ := exists_int16_group h (i := 2) rfl
    have hdata : Run isHex (group gs 3) := run_group (i := 2) h rfl
    have heven : EvenData line ↔ (group gs 3).length % 2 = 0 :=
      ⟨fun hline => hline gs h, fun hlen gs' h' => Option.some.inj (h.symm.trans h') ▸ hlen⟩
    rw [ha, hb, heven, ← exists_fromHex_iff hdata.2]
    constructor
    · rintro ⟨e, he⟩
      cases hbytes : fromHex (group gs 3) with
      | none =>
          rw [hbytes] at he
          cases he
      | some bs => exact ⟨bs, rfl⟩
    · rintro ⟨bs, hbs⟩
      rw [hbs]
      exact ⟨_, rfl⟩
  · next h =>
    refine iff_of_true ⟨_, rfl⟩ fun gs h' => ?_
    rw [h] at h'
    cases h'

/-- The entries of the lines, each read on its own. -/
def entries (word : Char → Bool) (lines : List (List Char)) : List LogEntry :=
  lines.filterMap fun line => (parseLine word line).join

theorem parseLines_eq {lines : List (List Char)} (h : ∀ line ∈ lines, EvenData line)
    (log : CartLog) : parseLines word log lines = some ((entries word lines).foldl .add log) := by
  induction lines generalizing log with
  | nil => rfl
  | cons line lines ih =>
      have ih := fun log => ih (fun l hl => h l (List.mem_cons_of_mem line hl)) log
      have hline : ∃ e, parseLine word line = some e :=
        exists_parseLine_iff.2 (h line List.mem_cons_self)
      obtain ⟨e, he⟩ := hline
      cases e with
      | none =>
          have hskip : entries word (line :: lines) = entries word lines := by
            rw [entries, List.filterMap_cons_none]
            · rfl
            · rw [he]
              rfl
          rw [parseLines, he, hskip]
          exact ih log
      | some e =>
          have hcons : entries word (line :: lines) = e :: entries word lines := by
            rw [entries, List.filterMap_cons_some]
            · rfl
            · rw [he]
              rfl
          rw [parseLines, he, hcons, List.foldl_cons]
          exact ih (log.add e)

theorem evenData_of_parseLines {lines : List (List Char)} {log log' : CartLog}
    (h : parseLines word log lines = some log') : ∀ line ∈ lines, EvenData line := by
  induction lines generalizing log with
  | nil => exact fun line hline => absurd hline List.not_mem_nil
  | cons line lines ih =>
      rw [parseLines] at h
      cases he : parseLine word line with
      | none =>
          rw [he] at h
          cases h
      | some e =>
          have hline := exists_parseLine_iff.1 ⟨e, he⟩
          have hrest : ∀ l ∈ lines, EvenData l := by
            rw [he] at h
            cases e with
            | none => exact ih h
            | some e => exact ih h
          intro l hl
          rcases List.mem_cons.1 hl with rfl | hl
          · exact hline
          · exact hrest l hl

/-- The text is accepted: a report is returned, and it is made of what each line
records on its own. -/
def Accepts (word : Char → Bool) (ranges : Ranges) (text : List Char) : Prop :=
  parseText word ranges text =
    some (report ((entries word (splitlines text)).foldl .add .empty) ranges)

end Lines

/-- The parser accepts a text exactly when no line of it is an MIE reply whose data is
an odd number of digits. -/
theorem parseText_accepts_iff (word : Char → Bool) (ranges : Ranges) (text : List Char) :
    Accepts word ranges text ↔ ∀ line ∈ splitlines text, EvenData line := by
  unfold Accepts parseText
  constructor
  · intro h
    obtain ⟨log, hlog, -⟩ := Option.map_eq_some_iff.1 h
    exact evenData_of_parseLines hlog
  · intro h
    rw [parseLines_eq h]
    rfl

/-- A log that ends in the middle of the data of a reply raises, whatever else it
records. -/
theorem parseText_not_accepts :
    parseText Char.isAlphanum ⟨[], [], []⟩
      "CARTDMA src=0 dest=c000000 len=20\nMIERESP sub=15 addr=0c012345 data=8f1".toList = none ∧
    ¬ Accepts Char.isAlphanum ⟨[], [], []⟩
      "CARTDMA src=0 dest=c000000 len=20\nMIERESP sub=15 addr=0c012345 data=8f1".toList := by
  have hnone : parseText Char.isAlphanum ⟨[], [], []⟩
      "CARTDMA src=0 dest=c000000 len=20\nMIERESP sub=15 addr=0c012345 data=8f1".toList =
      none := by
    decide +kernel
  refine ⟨hnone, fun h => ?_⟩
  rw [Accepts, hnone] at h
  cases h

end Cfp2Dreamcast
