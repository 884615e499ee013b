import Cfp2Dreamcast.Checks.StreamingMap

/-!
# Logs with the same lines

The lines of a text that ends in a line break are those of the two parts, so a line can
be put in front of a log, and the files of a join contribute their own lines; only empty
lines depend on how the parts meet, and they record nothing. Two logs with the same
lines agree up to the order of transfers that share source and destination, and where
two transfers do share them, repeating a line at the start of the log changes the map.
-/

namespace Cfp2Dreamcast

open Lists

section Lines

theorem newline_mem_lineBreaks : '\n' ∈ lineBreaks := by decide

theorem splitlinesFrom_newline (line text : List Char) :
    splitlinesFrom line ('\n' :: text) = line.reverse :: splitlines text := by
  rw [splitlinesFrom, if_pos newline_mem_lineBreaks]
  · rfl
  · intro text' h
    cases h

theorem splitlinesFrom_of_not_mem {c : Char} (hc : c ∉ lineBreaks) (line text : List Char) :
    splitlinesFrom line (c :: text) = splitlinesFrom (c :: line) text := by
  rw [splitlinesFrom, if_neg hc]
  intro text' h
  cases h
  exact absurd (by decide) hc

/-- A line that is ended by a line break is the first one. -/
theorem splitlines_cons_line {first : List Char} (h : ∀ c ∈ first, c ∉ lineBreaks)
    (text : List Char) : splitlines (first ++ '\n' :: text) = first :: splitlines text := by
  have hfrom : ∀ line, splitlinesFrom line (first ++ '\n' :: text) =
      (line.reverse ++ first) :: splitlines text := by
    induction first with
    | nil => exact fun line => by rw [List.nil_append, splitlinesFrom_newline, List.append_nil]
    | cons c first ih =>
        intro line
        have hrest := ih (fun c' hc' => h c' (List.mem_cons_of_mem c hc')) (c :: line)
        rw [List.cons_append, splitlinesFrom_of_not_mem (h c List.mem_cons_self), hrest,
          List.reverse_cons, List.append_assoc, List.singleton_append]
  exact hfrom []

theorem splitlinesFrom_of_mem {c : Char} (hc : c ∈ lineBreaks) (line : List Char)
    {text : List Char} (hne : ∀ text', c = '\r' → text = '\n' :: text' → False) :
    splitlinesFrom line (c :: text) = line.reverse :: splitlines text := by
  rw [splitlinesFrom, if_pos hc]
  · rfl
  · exact hne

/-- A line holds no line break. -/
theorem not_mem_lineBreaks_of_mem_splitlines {text line : List Char}
    (h : line ∈ splitlines text) : ∀ c ∈ line, c ∉ lineBreaks := by
  have hnil : ∀ c ∈ ([] : List Char), c ∉ lineBreaks := fun c hc => absurd hc List.not_mem_nil
  have hfrom : ∀ part text, (∀ c ∈ part, c ∉ lineBreaks) →
      line ∈ splitlinesFrom part text → ∀ c ∈ line, c ∉ lineBreaks := by
    intro part text
    induction part, text using splitlinesFrom.induct with
    | case1 => exact fun _ hline => absurd hline List.not_mem_nil
    | case2 part hpart =>
        intro hbreaks hline c hc
        rw [splitlinesFrom, if_neg hpart] at hline
        rw [List.mem_singleton.1 hline] at hc
        exact hbreaks c (List.mem_reverse.1 hc)
    | case3 part text ih =>
        intro hbreaks hline c hc
        rw [splitlinesFrom] at hline
        rcases List.mem_cons.1 hline with rfl | hline
        · exact hbreaks c (List.mem_reverse.1 hc)
        · exact ih hnil hline c hc
    | case4 part c' text hne hbreak ih =>
        intro hbreaks hline c hc
        rw [splitlinesFrom_of_mem hbreak part hne] at hline
        rcases List.mem_cons.1 hline with rfl | hline
        · exact hbreaks c (List.mem_reverse.1 hc)
        · exact ih hnil hline c hc
    | case5 part c' text hne hbreak ih =>
        intro hbreaks hline
        rw [splitlinesFrom_of_not_mem hbreak] at hline
        exact ih (List.forall_mem_cons.2 ⟨hbreak, hbreaks⟩) hline
  exact hfrom [] text hnil h

/-- A join has the lines of its parts, apart from empty ones. -/
theorem mem_splitlines_join {line : List Char} (hline : line ≠ []) (text text' : List Char) :
    line ∈ splitlines (text ++ '\n' :: text') ↔
      line ∈ splitlines text ∨ line ∈ splitlines text' := by
  have hfrom : ∀ part text, line ∈ splitlinesFrom part (text ++ '\n' :: text') ↔
      line ∈ splitlinesFrom part text ∨ line ∈ splitlines text' := by
    intro part text
    induction part, text using splitlinesFrom.induct with
    | case1 =>
        rw [List.nil_append, splitlinesFrom_newline, List.mem_cons, splitlinesFrom, if_pos rfl]
        exact or_congr_left (iff_of_false hline List.not_mem_nil)
    | case2 part hpart =>
        rw [List.nil_append, splitlinesFrom_newline, List.mem_cons, splitlinesFrom, if_neg hpart,
          List.mem_singleton]
    | case3 part text ih =>
        rw [List.cons_append, List.cons_append, splitlinesFrom, splitlinesFrom, List.mem_cons,
          List.mem_cons, ih, or_assoc]
    | case4 part c text hne hbreak ih =>
        rw [List.cons_append, splitlinesFrom_of_mem hbreak part hne, List.mem_cons, or_assoc]
        by_cases hcr : c = '\r' ∧ text = []
        · -- the newline of the join completes a line break of two characters
          obtain ⟨rfl, rfl⟩ := hcr
          rw [List.nil_append, splitlinesFrom, List.mem_cons]
          exact or_congr_right (or_iff_right List.not_mem_nil).symm
        · have hne' : ∀ rest, c = '\r' → text ++ '\n' :: text' = '\n' :: rest → False := by
            intro rest hc hrest
            cases text with
            | nil => exact hcr ⟨hc, rfl⟩
            | cons d text =>
                obtain ⟨rfl, -⟩ := List.cons_eq_cons.1 hrest
                exact hne text hc rfl
          rw [splitlinesFrom_of_mem hbreak part hne', List.mem_cons]
          exact or_congr_right ih
    | case5 part c text hne hbreak ih =>
        rw [List.cons_append, splitlinesFrom_of_not_mem hbreak,
          splitlinesFrom_of_not_mem hbreak, ih]
  exact hfrom [] text

theorem mem_splitlines_intercalate {line : List Char} (hline : line ≠ [])
    (files : List (List Char)) :
    line ∈ splitlines (['\n'].intercalate files) ↔ ∃ text ∈ files, line ∈ splitlines text := by
  induction files with
  | nil => exact iff_of_false List.not_mem_nil fun ⟨_, htext, _⟩ => absurd htext List.not_mem_nil
  | cons text files ih =>
      cases files with
      | nil => simp [List.intercalate]
      | cons text' files =>
          have hjoin : ['\n'].intercalate (text :: text' :: files) =
              text ++ '\n' :: ['\n'].intercalate (text' :: files) := by
            simp [List.intercalate]
          rw [hjoin, mem_splitlines_join hline, ih, List.exists_mem_cons_iff _ text]

end Lines

/-- The texts have the same set of lines. -/
def SameLines (text text' : List Char) : Prop :=
  SameMembers (splitlines text) (splitlines text')

section Runs

variable {word : Char → Bool} {ranges : Ranges} {text text' : List Char}

/-- What the lines of a text record, each read on its own. -/
def recorded (word : Char → Bool) (text : List Char) : CartLog :=
  (entries word (splitlines text)).foldl .add .empty

theorem parseText_of_evenData (h : ∀ line ∈ splitlines text, EvenData line) :
    parseText word ranges text = some (report (recorded word text) ranges) := by
  rw [parseText, parseLines_eq h]
  rfl

theorem evenData_of_parseText {r : Report} (h : parseText word ranges text = some r) :
    (∀ line ∈ splitlines text, EvenData line) ∧ r = report (recorded word text) ranges := by
  obtain ⟨log, hlog, -⟩ := Option.map_eq_some_iff.1 h
  have heven := evenData_of_parseLines hlog
  rw [parseText_of_evenData heven] at h
  exact ⟨heven, (Option.some.inj h).symm⟩

/-- An empty line records nothing. -/
theorem parseLine_nil : parseLine word [] = some none := rfl

theorem mem_entries_iff {e : LogEntry} {lines : List (List Char)} :
    e ∈ entries word lines ↔ ∃ line ∈ lines, parseLine word line = some (some e) := by
  rw [entries, List.mem_filterMap]
  simp only [Option.join_eq_some_iff]

/-- Lines that are the same apart from empty ones record the same entries. -/
theorem entries_congr {lines lines' : List (List Char)}
    (h : ∀ line, line ≠ [] → (line ∈ lines ↔ line ∈ lines')) :
    SameMembers (entries word lines) (entries word lines') := by
  intro e
  have hline : ∀ line, parseLine word line = some (some e) → line ≠ [] := by
    rintro _ he rfl
    rw [parseLine_nil] at he
    cases he
  rw [mem_entries_iff, mem_entries_iff]
  exact exists_congr fun line => and_congr_left fun he => h line (hline line he)

theorem evenData_congr {lines lines' : List (List Char)}
    (h : ∀ line, line ≠ [] → (line ∈ lines ↔ line ∈ lines'))
    (heven : ∀ line ∈ lines, EvenData line) : ∀ line ∈ lines', EvenData line := by
  intro line hline
  by_cases hnil : line = []
  · have hskip : ∃ e, parseLine Char.isAlphanum [] = some e := ⟨none, parseLine_nil⟩
    rw [hnil]
    exact exists_parseLine_iff.1 hskip
  · exact heven line ((h line hnil).2 hline)

/-- Logs whose lines are the same apart from empty ones agree, or both raise. -/
theorem agree_of_lines
    (h : ∀ line, line ≠ [] → (line ∈ splitlines text ↔ line ∈ splitlines text')) :
    Option.Rel Agree (parseText word ranges text) (parseText word ranges text') := by
  by_cases heven : ∀ line ∈ splitlines text, EvenData line
  · rw [parseText_of_evenData heven, parseText_of_evenData (evenData_congr h heven)]
    exact .some (agree_report (sameLog_foldl (entries_congr h)) ranges)
  · have hnone : parseText word ranges text = none :=
      Option.eq_none_iff_forall_ne_some.2 fun r hr => heven (evenData_of_parseText hr).1
    have hnone' : parseText word ranges text' = none :=
      Option.eq_none_iff_forall_ne_some.2 fun r hr =>
        heven (evenData_congr (fun line hline => (h line hline).symm) (evenData_of_parseText hr).1)
    rw [hnone, hnone']
    exact .none

/-- A transfer that is recorded stays where it is. -/
theorem dma_prefix_add (log : CartLog) (e : LogEntry) : log.dma <+: (log.add e).dma := by
  cases e with
  | dma src dest len =>
      rw [add_dma]
      dsimp only
      split
      · exact List.prefix_refl log.dma
      · exact List.prefix_append log.dma _
  | pio offset =>
      have hsame : (log.add (.pio offset)).dma = log.dma := by rw [add_pio]
      exact hsame ▸ List.prefix_refl log.dma
  | _ => exact List.prefix_refl log.dma

theorem dma_prefix_foldl (log : CartLog) (es : List LogEntry) :
    log.dma <+: (es.foldl .add log).dma := by
  induction es generalizing log with
  | nil => exact List.prefix_refl log.dma
  | cons e es ih => exact (dma_prefix_add log e).trans (ih (log.add e))

/-- The line of the later of two transfers, repeated at the start of the log, puts it
before the earlier one. -/
theorem exists_swapped {d e : ℕ × ℕ × ℕ} (hne : d ≠ e) (hd : d ∈ (recorded word text).dma)
    (he : e ∈ (recorded word text).dma) :
    ∃ text', SameLines text text' ∧ [e, d].Sublist (recorded word text').dma := by
  have hentry : ∀ {d}, d ∈ (recorded word text).dma →
      LogEntry.dma d.1 d.2.1 d.2.2 ∈ entries word (splitlines text) := fun hd =>
    ((mem_dma_foldl _ _ _).1 hd).resolve_left List.not_mem_nil
  obtain ⟨line, hline, hparse⟩ := mem_entries_iff.1 (hentry he)
  have hlines : splitlines (line ++ '\n' :: text) = line :: splitlines text :=
    splitlines_cons_line (not_mem_lineBreaks_of_mem_splitlines hline) text
  have hentries : entries word (line :: splitlines text) =
      LogEntry.dma e.1 e.2.1 e.2.2 :: entries word (splitlines text) := by
    rw [entries, List.filterMap_cons_some]
    · rfl
    · rw [hparse]
      rfl
  refine ⟨line ++ '\n' :: text, fun line' => ?_, ?_⟩
  · rw [hlines, List.mem_cons]
    exact ⟨Or.inr, fun h => h.elim (fun heq => heq ▸ hline) id⟩
  · rw [recorded, hlines, hentries, List.foldl_cons]
    have hfirst : (CartLog.empty.add (.dma e.1 e.2.1 e.2.2)).dma = [e] := rfl
    obtain ⟨rest, hrest⟩ := dma_prefix_foldl (CartLog.empty.add (.dma e.1 e.2.1 e.2.2))
      (entries word (splitlines text))
    have hmem := (mem_dma_foldl (CartLog.empty.add (.dma e.1 e.2.1 e.2.2))
      (entries word (splitlines text)) d).2 (Or.inr (hentry hd))
    rw [hfirst] at hrest
    rw [← hrest] at hmem ⊢
    have hd : d ∈ rest := (List.mem_cons.1 hmem).resolve_left hne
    exact (List.singleton_sublist.2 hd).cons_cons e

/-- Where two transfers share source and destination, another log with the same lines
has another streaming map. -/
theorem oneLength_of_sameMap (h : ∀ text', SameLines text text' →
      Option.Rel SameMap (parseText word ranges text) (parseText word ranges text')) :
    ∀ r ∈ parseText word ranges text, OneLength r.log.dma := by
  intro r hr d hd e he hsrc hdest
  obtain ⟨heven, rfl⟩ := evenData_of_parseText hr
  rw [report_dma, List.mem_mergeSort] at hd he
  by_contra hlen
  have hswap : ∀ {d e : ℕ × ℕ × ℕ}, keyLe d e → keyLe e d → d ≠ e →
      [d, e].Sublist (recorded word text).dma → False := by
    intro d e hde hed hne hsub
    obtain ⟨text', hlines, hsub'⟩ := exists_swapped hne (hsub.subset List.mem_cons_self)
      (hsub.subset (List.mem_cons_of_mem d List.mem_cons_self))
    have hsame := h text' hlines
    rw [parseText_of_evenData heven, parseText_of_evenData
      (evenData_congr (fun line _ => hlines line) heven)] at hsame
    obtain ⟨hsame⟩ := hsame
    exact mergeSort_ne_of_swap keyLe_trans keyLe_total hde hed hsub hsub' (nodup_foldl _).1
      hsame.dma
  have hne : d ≠ e := fun heq => hlen (heq ▸ rfl)
  have hde : keyLe d e := keyLe_iff.2 (Or.inr ⟨hsrc, hdest.le⟩)
  have hed : keyLe e d := keyLe_iff.2 (Or.inr ⟨hsrc.symm, hdest.ge⟩)
  rcases pair_sublist_or_swap hd he hne with hsub | hsub
  · exact hswap hde hed hne hsub
  · exact hswap hed hde hne.symm hsub

end Runs

/-- Logs with the same lines, and the same files in any order, give the same streaming
map up to the order of transfers that share source and destination, and the same
verdicts. The map is the same for all logs with the lines of a log exactly when no two
of its transfers share both. -/
theorem parseText_canonical (word : Char → Bool) (ranges : Ranges) :
    (∀ text text', SameLines text text' →
      Option.Rel Agree (parseText word ranges text) (parseText word ranges text')) ∧
    (∀ files files' : List (List Char), files.Perm files' →
      Option.Rel Agree (parseFiles word ranges files) (parseFiles word ranges files')) ∧
    ∀ text, (∀ text', SameLines text text' →
        Option.Rel SameMap (parseText word ranges text) (parseText word ranges text')) ↔
      ∀ r ∈ parseText word ranges text, OneLength r.log.dma := by
  refine ⟨fun text text' h => agree_of_lines fun line _ => h line, fun files files' h => ?_,
    fun text => ⟨oneLength_of_sameMap, fun hone text' h => ?_⟩⟩
  · refine agree_of_lines fun line hline => ?_
    rw [mem_splitlines_intercalate hline, mem_splitlines_intercalate hline]
    exact exists_congr fun text => and_congr_left' h.mem_iff
  · have hagree : Option.Rel Agree (parseText word ranges text) (parseText word ranges text') :=
      agree_of_lines fun line _ => h line
    revert hagree hone
    generalize parseText word ranges text = r, parseText word ranges text' = r'
    intro hone hagree
    cases hagree with
    | none => exact .none
    | some hagree => exact .some (hagree.canonical (hone _ rfl))

/-- Two transfers of different lengths between the same addresses. -/
def twoLengths : List Char :=
  "CARTDMA src=200000 dest=c400000 len=20\nCARTDMA src=200000 dest=c400000 len=40".toList

/-- The same two lines the other way round. -/
def twoLengthsSwapped : List Char :=
  "CARTDMA src=200000 dest=c400000 len=40\nCARTDMA src=200000 dest=c400000 len=20".toList

/-- A log whose transfers are in order is reported as it is. -/
theorem report_of_sorted {log : CartLog} (hdma : log.dma.Pairwise (keyLe · ·))
    (hpio : log.pio = []) (ranges : Ranges) : (report log ranges).log = log := by
  have hlog : (report log ranges).log =
      { log with dma := log.dma.mergeSort keyLe, pio := log.pio.mergeSort fun a b => a ≤ b } := rfl
  rw [hlog, List.mergeSort_of_pairwise hdma, hpio, List.mergeSort_nil, ← hpio]

/-- The two transfers come out in the order of the log, in the list and in the CSV. -/
theorem parseText_not_canonical :
    SameLines twoLengths twoLengthsSwapped ∧
      ¬ Option.Rel SameMap (parseText Char.isAlphanum ⟨[], [], []⟩ twoLengths)
        (parseText Char.isAlphanum ⟨[], [], []⟩ twoLengthsSwapped) ∧
      (parseText Char.isAlphanum ⟨[], [], []⟩ twoLengths).map writeCsv ≠
        (parseText Char.isAlphanum ⟨[], [], []⟩ twoLengthsSwapped).map writeCsv := by
  have hlog : parseLines Char.isAlphanum .empty (splitlines twoLengths) =
      some { CartLog.empty with
        dma := [(0x200000, 0xc400000, 0x20), (0x200000, 0xc400000, 0x40)] } := by
    decide +kernel
  have hlogSwapped : parseLines Char.isAlphanum .empty (splitlines twoLengthsSwapped) =
      some { CartLog.empty with
        dma := [(0x200000, 0xc400000, 0x40), (0x200000, 0xc400000, 0x20)] } := by
    decide +kernel
  have hcsv : (parseText Char.isAlphanum ⟨[], [], []⟩ twoLengths).map writeCsv ≠
      (parseText Char.isAlphanum ⟨[], [], []⟩ twoLengthsSwapped).map writeCsv := by
    rw [parseText, parseText, hlog, hlogSwapped]
    intro heq
    have hbytes := Option.some.inj heq
    unfold writeCsv at hbytes
    rw [report_of_sorted (by decide) rfl, report_of_sorted (by decide) rfl] at hbytes
    exact absurd hbytes (by decide +kernel)
  refine ⟨?_, fun h => hcsv ?_, hcsv⟩
  · have hlines : splitlines twoLengths =
        ["CARTDMA src=200000 dest=c400000 len=20".toList,
          "CARTDMA src=200000 dest=c400000 len=40".toList] := by decide +kernel
    have hlinesSwapped : splitlines twoLengthsSwapped =
        ["CARTDMA src=200000 dest=c400000 len=40".toList,
          "CARTDMA src=200000 dest=c400000 len=20".toList] := by decide +kernel
    intro line
    rw [hlines, hlinesSwapped]
    exact (List.Perm.swap _ _ []).mem_iff
  · revert h
    generalize parseText Char.isAlphanum ⟨[], [], []⟩ twoLengths = r,
      parseText Char.isAlphanum ⟨[], [], []⟩ twoLengthsSwapped = r'
    intro h
    cases h with
    | none => rfl
    | some h => rw [Option.map_some, Option.map_some, h.csv]

end Cfp2Dreamcast
