import Cfp2Dreamcast.Checks.CartLog
import Cfp2Dreamcast.Lists.Members

/-!
# The streaming map

`parse_files` joins the log files, and `write_csv` writes the transfers and seeks of the
report as the streaming map. Two logs with the same lines give the same seeks, marks and
verdicts, since a line is only ever asked for its presence. The transfers are told apart
by source, destination and length but sorted by source and destination alone, so those
that share both stay in the order in which the log has them.
-/

namespace Cfp2Dreamcast

open Lists

/-- `parse_files`, of the texts that are read from the files. -/
def parseFiles (word : Char → Bool) (ranges : Ranges) (files : List (List Char)) :
    Option Report :=
  parseText word ranges (['\n'].intercalate files)

/-- `%x`. -/
def hexLower (n : ℕ) : List Char := Nat.toDigits 16 n

/-- `%08x`. -/
def hexLower08 (n : ℕ) : List Char :=
  List.replicate (8 - (hexLower n).length) '0' ++ hexLower n

def dmaRow (d : ℕ × ℕ × ℕ) : List Char :=
  "0x".toList ++ hexLower08 d.1 ++ ",0x".toList ++ hexLower d.2.2 ++ ",0x".toList ++
    hexLower08 d.2.1 ++ ",DMA\n".toList

def pioRow (off : ℕ) : List Char :=
  "0x".toList ++ hexLower08 off ++ ",0x0,0x00000000,PIO\n".toList

/-- The bytes that `write_csv` writes; all of the text is ASCII. -/
def writeCsv (r : Report) : List UInt8 :=
  ("cart_offset,length,dest,mode\n".toList ++ r.log.dma.flatMap dmaRow ++
    r.log.pio.flatMap pioRow).map fun c => UInt8.ofNat c.toNat

/-! What two reports have in common. -/

/-- The reports give the same streaming map and the same verdicts. -/
structure SameMap (r r' : Report) : Prop where
  dma : r.log.dma = r'.log.dma
  pio : r.log.pio = r'.log.pio
  watermarks : ∀ region, r.log.watermarks.lookup region = r'.log.watermarks.lookup region
  checks : r.checks = r'.checks
  csv : writeCsv r = writeCsv r'

/-- The key of the sort: source, then destination. -/
def keyLe (d e : ℕ × ℕ × ℕ) : Bool := d.1 < e.1 || d.1 == e.1 && d.2.1 ≤ e.2.1

/-- No two transfers share source and destination. -/
def OneLength (dma : List (ℕ × ℕ × ℕ)) : Prop :=
  ∀ d ∈ dma, ∀ e ∈ dma, d.1 = e.1 → d.2.1 = e.2.1 → d.2.2 = e.2.2

/-- The reports give the same streaming map up to the order of transfers that share
source and destination, and the same verdicts. -/
structure Agree (r r' : Report) : Prop where
  transfers : r.log.dma.Perm r'.log.dma
  sorted : r.log.dma.Pairwise (keyLe · ·) ∧ r'.log.dma.Pairwise (keyLe · ·)
  pio : r.log.pio = r'.log.pio
  watermarks : ∀ region, r.log.watermarks.lookup region = r'.log.watermarks.lookup region
  checks : r.checks = r'.checks
  canonical : OneLength r.log.dma → SameMap r r'

section Entries

/-- The logs have recorded the same things, in any order and number. -/
structure SameLog (log log' : CartLog) : Prop where
  dma : log.dma.Perm log'.dma
  pio : log.pio.Perm log'.pio
  watermarks : ∀ region, log.watermarks.lookup region = log'.watermarks.lookup region
  cartdmaPc : SameMembers log.cartdmaPc log'.cartdmaPc
  maplePc : SameMembers log.maplePc log'.maplePc
  biosExec : SameMembers log.biosExec log'.biosExec
  shimwatch : SameMembers log.shimwatch log'.shimwatch

variable (log : CartLog) (e : LogEntry)

/-- A transfer changes the transfers alone. -/
theorem add_dma (src dest len : ℕ) :
    log.add (.dma src dest len) =
      { log with
        dma := if (src, dest, len) ∈ log.dma then log.dma else log.dma ++ [(src, dest, len)] } := by
  rw [CartLog.add]
  split
  · rfl
  · rfl

theorem add_pio (offset : ℕ) :
    log.add (.pio offset) =
      { log with pio := if offset ∈ log.pio then log.pio else log.pio ++ [offset] } := by
  rw [CartLog.add]
  split
  · rfl
  · rfl

/-- An entry that is only added when it is new is there afterwards in both cases. -/
theorem mem_ite_append {α : Type*} (l : List α) (a b : α) [Decidable (a ∈ l)] :
    b ∈ (if a ∈ l then l else l ++ [a]) ↔ b ∈ l ∨ a = b := by
  split
  · next hmem => exact ⟨Or.inl, fun h => h.elim id fun heq => heq ▸ hmem⟩
  · rw [List.mem_append, List.mem_singleton, eq_comm]

theorem nodup_ite_append {α : Type*} {l : List α} (h : l.Nodup) (a : α) [Decidable (a ∈ l)] :
    (if a ∈ l then l else l ++ [a]).Nodup := by
  split
  · exact h
  · next hmem => exact List.nodup_append_comm.1 (List.nodup_cons.2 ⟨hmem, h⟩)

theorem mem_dma_add (d : ℕ × ℕ × ℕ) :
    d ∈ (log.add e).dma ↔ d ∈ log.dma ∨ e = .dma d.1 d.2.1 d.2.2 := by
  obtain ⟨src, dest, len⟩ := d
  cases e with
  | dma src' dest' len' =>
      simp only [add_dma, mem_ite_append, Prod.mk.injEq, LogEntry.dma.injEq]
  | pio offset => simp [add_pio]
  | _ => simp [CartLog.add]

theorem mem_pio_add (off : ℕ) : off ∈ (log.add e).pio ↔ off ∈ log.pio ∨ e = .pio off := by
  cases e with
  | pio offset =>
      simp only [add_pio, mem_ite_append, LogEntry.pio.injEq]
  | dma src dest len => simp [add_dma]
  | _ => simp [CartLog.add]

theorem mem_cartdmaPc_add (d : ℕ × ℕ) :
    d ∈ (log.add e).cartdmaPc ↔ d ∈ log.cartdmaPc ∨ e = .dmaPc d.1 d.2 := by
  obtain ⟨pc, sp⟩ := d
  cases e with
  | dma src dest len => simp [add_dma]
  | pio offset => simp [add_pio]
  | _ => simp [CartLog.add, eq_comm]

theorem mem_maplePc_add (d : ℕ × ℕ) :
    d ∈ (log.add e).maplePc ↔ d ∈ log.maplePc ∨ e = .maplePc d.1 d.2 := by
  obtain ⟨sub, pc⟩ := d
  cases e with
  | dma src dest len => simp [add_dma]
  | pio offset => simp [add_pio]
  | _ => simp [CartLog.add, eq_comm]

theorem mem_biosExec_add (pc : ℕ) :
    pc ∈ (log.add e).biosExec ↔ pc ∈ log.biosExec ∨ e = .biosExec pc := by
  cases e with
  | dma src dest len => simp [add_dma]
  | pio offset => simp [add_pio]
  | _ => simp [CartLog.add, eq_comm]

theorem mem_shimwatch_add (addr : ℕ) :
    addr ∈ (log.add e).shimwatch ↔ addr ∈ log.shimwatch ∨ e = .shimwatch addr := by
  cases e with
  | dma src dest len => simp [add_dma]
  | pio offset => simp [add_pio]
  | _ => simp [CartLog.add, eq_comm]

theorem nodup_add (h : log.dma.Nodup ∧ log.pio.Nodup) :
    (log.add e).dma.Nodup ∧ (log.add e).pio.Nodup := by
  cases e with
  | dma src dest len =>
      rw [add_dma]
      exact ⟨nodup_ite_append h.1 (src, dest, len), h.2⟩
  | pio offset =>
      rw [add_pio]
      exact ⟨h.1, nodup_ite_append h.2 offset⟩
  | _ => exact h

variable (es : List LogEntry)

theorem nodup_foldl : (es.foldl .add CartLog.empty).dma.Nodup ∧
    (es.foldl .add CartLog.empty).pio.Nodup :=
  List.foldlRecOn es CartLog.add ⟨List.nodup_nil, List.nodup_nil⟩ fun log h e _ =>
    nodup_add log e h

theorem mem_dma_foldl (d : ℕ × ℕ × ℕ) :
    d ∈ (es.foldl .add log).dma ↔ d ∈ log.dma ∨ .dma d.1 d.2.1 d.2.2 ∈ es :=
  mem_foldl_iff CartLog.dma (fun d => LogEntry.dma d.1 d.2.1 d.2.2)
    (fun log e => mem_dma_add log e d) log es

/-- Two marks with the same upper bounds are equal. -/
theorem eq_of_forall_lt_iff {m m' : Option ℕ}
    (h : ∀ c, (∀ v ∈ m, v < c) ↔ ∀ v ∈ m', v < c) : m = m' := by
  cases m with
  | none =>
      cases m' with
      | none => rfl
      | some v' => exact absurd ((h 0).1 (by simp) v' rfl) (Nat.not_lt_zero v')
  | some v =>
      cases m' with
      | none => exact absurd ((h 0).2 (by simp) v rfl) (Nat.not_lt_zero v)
      | some v' =>
          have hle : v' < v + 1 := (h (v + 1)).1 (by simp) v' rfl
          have hge : v < v' + 1 := (h (v' + 1)).2 (by simp) v rfl
          rw [Nat.le_antisymm (Nat.lt_succ_iff.1 hle) (Nat.lt_succ_iff.1 hge)]

/-- The bounds of a mark after one more use. -/
theorem lookup_raiseMark_lt_iff (region region' : List Char) (used c : ℕ)
    (marks : List (List Char × ℕ)) :
    (∀ v ∈ (raiseMark region' used marks).lookup region, v < c) ↔
      (∀ v ∈ marks.lookup region, v < c) ∧ (region' = region → used < c) := by
  induction marks with
  | nil =>
      rw [raiseMark, List.lookup_cons]
      by_cases h : region = region'
      · simp [h]
      · simp [beq_false_of_ne h, Ne.symm h]
  | cons mark marks ih =>
      obtain ⟨r, v⟩ := mark
      rw [raiseMark]
      by_cases hr : r = region'
      · rw [if_pos hr, List.lookup_cons, List.lookup_cons, ← hr]
        by_cases h : region = r
        · simp [h]
        · simp [beq_false_of_ne h, Ne.symm h]
      · rw [if_neg hr, List.lookup_cons, List.lookup_cons]
        by_cases h : region = r
        · have hne : region' ≠ region := fun heq => hr (h.symm.trans heq.symm)
          simp [h, h ▸ hne]
        · rw [beq_false_of_ne h]
          exact ih

theorem lookup_add_lt_iff (region : List Char) (c : ℕ) :
    (∀ v ∈ (log.add e).watermarks.lookup region, v < c) ↔
      (∀ v ∈ log.watermarks.lookup region, v < c) ∧
        ∀ used, e = .watermark region used → used < c := by
  cases e with
  | watermark region' used =>
      rw [CartLog.add, lookup_raiseMark_lt_iff]
      refine and_congr_right fun _ => ⟨fun h used' heq => ?_, fun h heq => ?_⟩
      · cases heq
        exact h rfl
      · exact h used (heq ▸ rfl)
  | dma src dest len => simp [add_dma]
  | pio offset => simp [add_pio]
  | _ => simp [CartLog.add]

/-- What a log has recorded is decided by which entries there were. -/
theorem sameLog_foldl {es es' : List LogEntry} (h : SameMembers es es') :
    SameLog (es.foldl .add .empty) (es'.foldl .add .empty) := by
  have hfield : ∀ {β : Type} (field : CartLog → List β) (entry : β → LogEntry),
      (∀ log e b, b ∈ field (log.add e) ↔ b ∈ field log ∨ e = entry b) →
      SameMembers (field (es.foldl .add .empty)) (field (es'.foldl .add .empty)) := by
    intro β field entry hadd b
    rw [mem_foldl_iff field entry fun log e => hadd log e b,
      mem_foldl_iff field entry fun log e => hadd log e b, h (entry b)]
  have hdma := hfield CartLog.dma (fun d => .dma d.1 d.2.1 d.2.2) mem_dma_add
  have hpio := hfield CartLog.pio .pio mem_pio_add
  refine ⟨hdma.perm (nodup_foldl es).1 (nodup_foldl es').1,
    hpio.perm (nodup_foldl es).2 (nodup_foldl es').2, fun region => ?_,
    hfield CartLog.cartdmaPc (fun d => .dmaPc d.1 d.2) mem_cartdmaPc_add,
    hfield CartLog.maplePc (fun d => .maplePc d.1 d.2) mem_maplePc_add,
    hfield CartLog.biosExec .biosExec mem_biosExec_add,
    hfield CartLog.shimwatch .shimwatch mem_shimwatch_add⟩
  refine eq_of_forall_lt_iff fun c => ?_
  rw [foldl_forall_iff (P := fun log => ∀ v ∈ log.watermarks.lookup region, v < c)
      fun log e => lookup_add_lt_iff log e region c,
    foldl_forall_iff (P := fun log => ∀ v ∈ log.watermarks.lookup region, v < c)
      fun log e => lookup_add_lt_iff log e region c]
  exact and_congr_right fun _ => forall_congr' fun e => imp_congr_left (h e)

end Entries

section Reports

theorem keyLe_iff {d e : ℕ × ℕ × ℕ} :
    keyLe d e ↔ d.1 < e.1 ∨ d.1 = e.1 ∧ d.2.1 ≤ e.2.1 := by
  simp [keyLe]

theorem keyLe_trans (d e f : ℕ × ℕ × ℕ) (hde : keyLe d e) (hef : keyLe e f) : keyLe d f := by
  rw [keyLe_iff] at hde hef ⊢
  omega

theorem keyLe_total (d e : ℕ × ℕ × ℕ) : keyLe d e || keyLe e d := by
  rw [Bool.or_eq_true, keyLe_iff, keyLe_iff]
  omega

/-- The key tells transfers apart when no two share source and destination. -/
theorem OneLength.eq_of_keyLe {dma : List (ℕ × ℕ × ℕ)} (h : OneLength dma) :
    ∀ d ∈ dma, ∀ e ∈ dma, keyLe d e → keyLe e d → d = e := by
  intro d hd e he hde hed
  rw [keyLe_iff] at hde hed
  have hsrc : d.1 = e.1 := by omega
  have hdest : d.2.1 = e.2.1 := by omega
  exact Prod.ext hsrc (Prod.ext hdest (h d hd e he hsrc hdest))

theorem OneLength.perm {dma dma' : List (ℕ × ℕ × ℕ)} (h : OneLength dma)
    (hperm : dma.Perm dma') : OneLength dma' := fun d hd e he =>
  h d (hperm.mem_iff.2 hd) e (hperm.mem_iff.2 he)

/-- The verdicts on the transfers ask for all or for some of them. -/
theorem dmaChecks_congr {dma dma' : List (ℕ × ℕ × ℕ)} (h : SameMembers dma dma') :
    dmaChecks dma = dmaChecks dma' := by
  rw [dmaChecks, dmaChecks, h.isEmpty, h.all, h.all, h.any]

theorem spSpread_congr {sps sps' : List ℕ} (h : SameMembers sps sps') :
    spSpread sps = spSpread sps' := by
  cases sps with
  | nil => rw [h.eq_nil_iff.1 rfl]
  | cons sp sps =>
      cases sps' with
      | nil => exact absurd (h.eq_nil_iff.2 rfl) (List.cons_ne_nil sp sps)
      | cons sp' sps' => rw [spSpread, spSpread, h.foldl_max, h.foldl_min]

theorem pcsOf_congr {maplePc maplePc' : List (ℕ × ℕ)} (h : SameMembers maplePc maplePc')
    (subs : List ℕ) : SameMembers (pcsOf maplePc subs) (pcsOf maplePc' subs) :=
  (h.filter fun m => m.1 ∈ subs).map Prod.snd

theorem pcChecks_congr {log log' : CartLog} (h : SameLog log log') (ranges : Ranges) :
    pcChecks log ranges = pcChecks log' ranges := by
  have hinput := pcsOf_congr h.maplePc [0x15]
  have heeprom := pcsOf_congr h.maplePc [0x01, 0x03, 0x0b]
  have hnil : log.cartdmaPc ≠ [] ↔ log'.cartdmaPc ≠ [] := not_congr h.cartdmaPc.eq_nil_iff
  have hinputNil : pcsOf log.maplePc [0x15] ≠ [] ↔ pcsOf log'.maplePc [0x15] ≠ [] :=
    not_congr hinput.eq_nil_iff
  simp only [pcChecks, h.biosExec.isEmpty, hnil, h.cartdmaPc.all, hinputNil, hinput.all,
    heeprom.isEmpty, heeprom.all, spSpread_congr (h.cartdmaPc.map Prod.snd)]

theorem report_dma (log : CartLog) (ranges : Ranges) :
    (report log ranges).log.dma = log.dma.mergeSort keyLe := rfl

theorem report_pio (log : CartLog) (ranges : Ranges) :
    (report log ranges).log.pio = log.pio.mergeSort fun a b => a ≤ b := rfl

theorem report_checks (log : CartLog) (ranges : Ranges) :
    (report log ranges).checks =
      dmaChecks (log.dma.mergeSort keyLe) ++ pcChecks log ranges ++ shimChecks log.shimwatch :=
  rfl

theorem report_pio_congr {log log' : CartLog} (h : log.pio.Perm log'.pio) (ranges : Ranges) :
    (report log ranges).log.pio = (report log' ranges).log.pio := by
  rw [report_pio, report_pio]
  refine mergeSort_eq_of_perm (fun a b c hab hbc => ?_) (fun a b => ?_) h
    fun a _ b _ hab hba => ?_
  · exact decide_eq_true ((of_decide_eq_true hab).trans (of_decide_eq_true hbc))
  · rw [Bool.or_eq_true, decide_eq_true_iff, decide_eq_true_iff]
    exact le_total a b
  · exact le_antisymm (of_decide_eq_true hab) (of_decide_eq_true hba)

theorem writeCsv_congr {r r' : Report} (hdma : r.log.dma = r'.log.dma)
    (hpio : r.log.pio = r'.log.pio) : writeCsv r = writeCsv r' := by
  unfold writeCsv
  rw [hdma, hpio]

theorem agree_report {log log' : CartLog} (h : SameLog log log') (ranges : Ranges) :
    Agree (report log ranges) (report log' ranges) := by
  have hdma : (report log ranges).log.dma.Perm (report log' ranges).log.dma := by
    rw [report_dma, report_dma]
    exact (List.mergeSort_perm log.dma keyLe).trans
      (h.dma.trans (List.mergeSort_perm log'.dma keyLe).symm)
  have hpio := report_pio_congr h.pio ranges
  have hchecks : (report log ranges).checks = (report log' ranges).checks := by
    have hmem : SameMembers (report log ranges).log.dma (report log' ranges).log.dma :=
      fun d => hdma.mem_iff
    rw [report_dma, report_dma] at hmem
    rw [report_checks, report_checks, dmaChecks_congr hmem, pcChecks_congr h, shimChecks,
      shimChecks, h.shimwatch.isEmpty]
  have hsorted : ∀ log, (report log ranges).log.dma.Pairwise (keyLe · ·) := fun log => by
    rw [report_dma]
    exact List.pairwise_mergeSort keyLe_trans keyLe_total log.dma
  refine ⟨hdma, ⟨hsorted log, hsorted log'⟩, hpio, h.watermarks, hchecks, fun hone => ?_⟩
  have heq : (report log ranges).log.dma = (report log' ranges).log.dma := by
    rw [report_dma] at hone ⊢
    exact mergeSort_eq_of_perm keyLe_trans keyLe_total h.dma
      (hone.perm (List.mergeSort_perm log.dma keyLe)).eq_of_keyLe
  exact ⟨heq, hpio, h.watermarks, hchecks, writeCsv_congr heq hpio⟩

end Reports

end Cfp2Dreamcast
