import Cfp2Dreamcast.Cart.Progress
import Cfp2Dreamcast.Memory.Copies

/-!
# The cart as a memory that copies

To the game the cart service is one operation: the bytes of the cart that the request
names replace the bytes of RAM at the destination. A history is any number of calls that
return, with the game writing whatever it likes between them. Below the shim home it
leaves exactly the memory of the abstract operations.
-/

namespace Cfp2Dreamcast

open Program Memory

/-- What a request asks for, as a copy between the cart and the cells of RAM. -/
def Request.copy (q : Request) : Copy := ⟨ramCell q.dest, q.off, q.len⟩

/-- The cells of the shim home and behind it. -/
def ShimCell (c : ℕ) : Prop := 0xfc0000 ≤ c

/-- Any number of calls that return. Between two calls the game writes any cells, the
register mirror among them, and the drive is left idle. -/
inductive History (b : Build) (W : World Mem) (s : State Mem) :
    List (Change UInt8) → State Mem → Prop
  | start : History b W s [] s
  | game {l : List (Change UInt8)} {s₁ s₂ : State Mem} (w : ℕ → Option UInt8)
      (h : History b W s l s₁) (hmem : ∀ c, s₂.mem c = (w c).getD (s₁.mem c))
      (hidle : s₂.drive = .idle) : History b W s (l ++ [.patch w]) s₂
  | call {l : List (Change UInt8)} {s₁ s₂ : State Mem} {tr : List (Event shimSig)}
      (h : History b W s l s₁)
      (hexec : Exec (flatMachine W) (shimCartService b) s₁ tr (.ret ()) s₂) :
      History b W s (l ++ [.copy (requestAt s₁.mem).copy]) s₂

section Cells

variable {q : Request} {c : ℕ}

/-- The cells of an accepted request. -/
theorem cells_iff_covers (hq : ¬ q.bad) : cells q.dest q.len c ↔ q.copy.Covers c := by
  obtain ⟨-, hlow, hhigh⟩ := q.accepted hq
  have hcell : ∀ i < q.len, ramCell (q.dest + i) = ramCell q.dest + i := by
    intro i hi
    unfold ramCell
    omega
  constructor
  · rintro ⟨x, hx, rfl⟩
    obtain ⟨i, hi, rfl⟩ := exists_add_of_range hx
    rw [hcell i hi]
    exact ⟨Nat.le_add_right _ _, Nat.add_lt_add_left hi _⟩
  · rintro ⟨hlo, hhi⟩
    have hlo' : ramCell q.dest ≤ c := hlo
    have hhi' : c < ramCell q.dest + q.len := hhi
    refine ⟨q.dest + (c - ramCell q.dest), range_add (by omega), ?_⟩
    rw [hcell _ (by omega)]
    omega

theorem shimCell_bounce (hc : cells shimBounce 2048 c) : ShimCell c := by
  obtain ⟨x, hx, rfl⟩ := hc
  have := (ramCell_bounce hx).1
  unfold ShimCell
  omega

theorem shimCell_shimErr (hc : cells shimErr 16 c) : ShimCell c := by
  obtain ⟨x, hx, rfl⟩ := hc
  have := (ramCell_shimErr hx).1
  unfold ShimCell
  omega

theorem shimCell_sbGdst (hc : cells sbGdst 4 c) : ShimCell c := by
  obtain ⟨x, hx, rfl⟩ := hc
  obtain ⟨i, hi, rfl⟩ := exists_add_of_range hx
  rw [ramCell_sbGdst hi]
  unfold ShimCell
  omega

end Cells

section Calls

variable {b : Build} {W : World Mem} {cart : ℕ → UInt8} {s s₁ s₂ : State Mem}
  {tr : List (Event shimSig)} {l : List (Change UInt8)}

/-- A call that returns is the copy of its request. -/
theorem call_copies {u : Unit} (hdisc : Mastered b W.disc cart) (hidle : s₁.drive = .idle)
    (h : Exec (flatMachine W) (shimCartService b) s₁ tr (.ret u) s₂) :
    AgreeOff ShimCell ((Change.copy (requestAt s₁.mem).copy).apply cart s₁.mem) s₂.mem ∧
      s₂.drive = .idle := by
  have hgood := (good_of_returned h).1
  have hserved := served_of_returned hdisc hidle h
  refine ⟨fun c hc => ?_, hserved.idle⟩
  by_cases hcov : (requestAt s₁.mem).copy.Covers c
  · obtain ⟨x, hx, rfl⟩ := (cells_iff_covers hgood).2 hcov
    obtain ⟨i, hi, rfl⟩ := exists_add_of_range hx
    rw [hserved.data i hi]
    simp only [Change.apply, if_pos hcov]
    have hcell : ramCell ((requestAt s₁.mem).dest + i) - ramCell (requestAt s₁.mem).dest = i := by
      obtain ⟨-, hlow, hhigh⟩ := (requestAt s₁.mem).accepted hgood
      unfold ramCell
      omega
    show _ = cart ((requestAt s₁.mem).off + _)
    rw [Request.copy, hcell]
  · rw [Change.apply_of_not_touches (c := .copy _) hcov]
    refine hserved.frame c ?_
    rintro (hd | hb | hg)
    · exact hcov ((cells_iff_covers hgood).1 hd)
    · exact hc (shimCell_bounce hb)
    · exact hc (shimCell_sbGdst hg)

/-- A call that dies has written no more of the game's memory than its window. -/
theorem death_spares {e : Halt} (hdisc : Mastered b W.disc cart) (hidle : s₁.drive = .idle)
    (h : Exec (flatMachine W) (shimCartService b) s₁ tr (.halt e) s₂) :
    AgreeOff (fun c => ShimCell c ∨
      ¬ (requestAt s₁.mem).bad ∧ (requestAt s₁.mem).copy.Covers c) s₁.mem s₂.mem := by
  obtain ⟨loads, tr', rfl, hloads, hanswer⟩ := (shimCartService_request b s₁).exec h
  unfold answerRequest at hanswer
  by_cases hbad : (requestAt s₁.mem).bad
  · rw [if_pos ((requestAt_refused_iff s₁.mem).2 hbad)] at hanswer
    have hdies : Dooms ⟨DieCmd, DieCmd, fun _ => True⟩
        (shimDie 2 (requestAt s₁.mem).off (requestAt s₁.mem).dest : Shim Unit) :=
      dooms_shimDie (fun _ hc => hc) trivial
    have hwithin : ∀ ev ∈ tr', Cmd.Within (range (p2Addr shimErr) 16) (fun _ => False) ev.cmd :=
      fun ev hev => ((hdies.exec hanswer).1 ev hev).within fun i hi => range_add hi
    have hbuf : s₁.drive.Within (range (p2Addr shimErr) 16) := hidle ▸ Drive.idle_within _
    obtain ⟨hrun, -⟩ := exec_run hanswer hwithin hbuf
    refine (flat_run_agreeOff hrun).mono ?_
    rintro c ⟨x, hx, rfl⟩
    exact .inl (shimCell_shimErr (cells_p2Addr ⟨x, hx, rfl⟩))
  · rw [if_neg fun h => hbad ((requestAt_refused_iff s₁.mem).1 h)] at hanswer
    rcases (serveRequest_outcome hdisc hidle hbad).exec hanswer with hfail | hserved
    · refine hfail.frame.mono ?_
      rintro c (hd | hb | he)
      · exact .inr ⟨hbad, (cells_iff_covers hbad).1 hd⟩
      · exact .inl (shimCell_bounce hb)
      · exact .inl (shimCell_shimErr he)
    · cases hserved.outcome

/-- The invariant of a history. -/
theorem History.refines (hdisc : Mastered b W.disc cart) (hidle : s.drive = .idle)
    (h : History b W s l s₁) :
    AgreeOff ShimCell (after cart l s.mem) s₁.mem ∧ s₁.drive = .idle := by
  induction h with
  | start => exact ⟨.refl _ _, hidle⟩
  | @game l s₁ s₂ w _ hmem hidle₂ ih =>
      refine ⟨fun c hc => ?_, hidle₂⟩
      rw [after_append, after_cons, after_nil, hmem c, ih.1 c hc]
      rfl
  | @call l s₁ s₂ tr _ hexec ih =>
      obtain ⟨hcopy, hidle₂⟩ := call_copies hdisc ih.2 hexec
      refine ⟨fun c hc => ?_, hidle₂⟩
      rw [after_append, after_cons, after_nil, hcopy c hc]
      exact Change.apply_congr (ih.1 c hc)

/-- The copies of a history are those of good requests. -/
theorem History.good (h : History b W s l s₁) :
    ∀ k, Change.copy k ∈ l → ∃ q : Request, ¬ q.bad ∧ q.copy = k := by
  induction h with
  | start => simp
  | game w _ _ _ ih =>
      intro k hk
      rcases List.mem_append.1 hk with hk | hk
      · exact ih k hk
      · simp at hk
  | call _ hexec ih =>
      intro k hk
      rcases List.mem_append.1 hk with hk | hk
      · exact ih k hk
      · obtain rfl : k = _ := by simpa using hk
        exact ⟨_, (good_of_returned hexec).1, rfl⟩

/-- The copies of a history stay out of the shim home. -/
theorem History.spares (h : History b W s l s₁) {k : Copy} (hk : Change.copy k ∈ l) {c : ℕ}
    (hc : k.Covers c) : ¬ ShimCell c := by
  obtain ⟨q, hgood, rfl⟩ := h.good k hk
  exact not_le.2 ((Request.accepted hgood).cells ((cells_iff_covers hgood).2 hc))

/-- The cart service refines the memory that copies. After any history the game's memory is
that of the abstract changes, so a cell holds the byte of the cart copied there last and
the cuts and the order of requests that do not meet make no difference. A good request can
always be served; a call that dies spares everything but its own window. -/
theorem cart_history_refines (hdisc : Mastered b W.disc cart) (hidle : s.drive = .idle) :
    (∀ l s', History b W s l s' →
      AgreeOff ShimCell (after cart l s.mem) s'.mem ∧
      (∀ l₁ k l₂ c, l = l₁ ++ .copy k :: l₂ → k.Covers c → (∀ x ∈ l₂, ¬ x.Touches c) →
        s'.mem c = cart (k.src + (c - k.dst))) ∧
      (¬ (requestAt s'.mem).bad →
        ∃ s'', History b W s (l ++ [.copy (requestAt s'.mem).copy]) s'') ∧
      ∀ tr e s'', Exec (flatMachine W) (shimCartService b) s' tr (.halt e) s'' →
        AgreeOff (fun c => ShimCell c ∨
          ¬ (requestAt s'.mem).bad ∧ (requestAt s'.mem).copy.Covers c)
          (after cart l s.mem) s''.mem) ∧
    ∀ l l' s₁ s₂, History b W s l s₁ → History b W s l' s₂ → Relation.EqvGen Recut l l' →
      AgreeOff ShimCell s₁.mem s₂.mem := by
  refine ⟨fun l s' h => ?_, fun l l' s₁ s₂ h h' hcut c hc => ?_⟩
  · obtain ⟨hmem, hidle'⟩ := h.refines hdisc hidle
    refine ⟨hmem, ?_, fun hgood => ?_, fun tr e s'' hexec => ?_⟩
    · rintro l₁ k l₂ c rfl hk huntouched
      rw [hmem c (h.spares (by simp) hk), after_copied hk huntouched]
    · obtain ⟨tr, s'', hexec, -⟩ := exists_served (b := b) (W := W) hidle' hgood
      exact ⟨s'', .call h hexec⟩
    · exact (hmem.mono fun c hc => .inl hc).trans (death_spares hdisc hidle' hexec)
  · rw [((h'.refines hdisc hidle).1 c hc), ((h.refines hdisc hidle).1 c hc),
      after_eq_of_recut hcut]

/-- The game writes the sample request and has it served. -/
theorem cart_history_refines_sample :
    let W : World Mem :=
      ⟨fun fad j => UInt8.ofNat (2048 * (fad - 451878) + j), fun m r m' => r = 0 ∧ m' = m⟩
    let s : State Mem := ⟨fun _ => 0, fun _ => 0, .idle, fun _ => 0⟩
    let k : Copy := ⟨0x100000, 100, 5000⟩
    ∃ s', History .gdi W s [.patch fun c => some (sampleMirror c), .copy k] s' ∧
      ∀ c, k.Covers c → s'.mem c = UInt8.ofNat (100 + (c - 0x100000)) := by
  intro W s k
  let s₁ : State Mem := { s with mem := sampleMirror }
  have hgame : History .gdi W s [.patch fun c => some (sampleMirror c)] s₁ :=
    .game (l := []) _ .start (fun _ => rfl) rfl
  have hall := (cart_history_refines (b := .gdi) (W := W) (s := s) mastered_sample rfl).1
  obtain ⟨s', hs'⟩ := (hall _ s₁ hgame).2.2.1 sampleMirror_good
  have hcopy : (requestAt s₁.mem).copy = k := by
    show (requestAt sampleMirror).copy = k
    rw [requestAt_sampleMirror]
    decide
  rw [hcopy] at hs'
  exact ⟨s', hs', fun c hc => (hall _ s' hs').2.1 _ k [] c rfl hc (by simp)⟩

end Calls

end Cfp2Dreamcast
