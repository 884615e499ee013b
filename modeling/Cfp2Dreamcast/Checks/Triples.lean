import Cfp2Dreamcast.Cart.EndToEnd
import Cfp2Dreamcast.Mastering.Disc

/-!
# The servability check

`check_triples.py` accepts the captured transfers that the mastered layout can
serve. Its bounds are those of the ROM and of main RAM; `shim_cart_service` also
refuses an empty transfer and one that reaches the shim.
-/

namespace Cfp2Dreamcast

open Program Memory

/-- A row of the capture table. -/
structure Row where
  cartOffset : ℕ
  length : ℕ
  dest : ℕ
  mode : String

def ramLo : ℕ := 0x0c000000
def ramHi : ℕ := 0x0d000000

/-- The problems that are reported for a row. -/
def rowProblems (r : Row) : ℕ :=
  if r.mode ≠ "DMA" then 0
  else (if r.cartOffset + r.length > romSize then 1 else 0) +
    if ¬ (ramLo ≤ r.dest ∧ r.dest + r.length ≤ ramHi) then 1 else 0

/-- `check`. -/
def checkTriples : List Row → ℕ
  | [] => 0
  | r :: rows => rowProblems r + checkTriples rows

/-- The mirror is programmed for the transfer of the row. -/
structure Programmed (m : Mem) (r : Row) : Prop where
  offH : ramWord m (p2Addr g1Mirror + 0x0c) &&& 0xffff = r.cartOffset >>> 16
  offL : ramWord m (p2Addr g1Mirror + 0x10) &&& 0xffff = r.cartOffset &&& 0xffff
  len : ramWord m (p2Addr g1Mirror + 0x408) = r.length
  star : ramWord m (p2Addr g1Mirror + 0x404) &&& 0x1fffffff = r.dest

/-- No call of the service dies with code 2. -/
def NotRefused (b : Build) (W : World Mem) (s : State Mem) : Prop :=
  ∀ tr o s', Exec (flatMachine W) (shimCartService b) s tr o s' →
    ∀ x y, o ≠ .halt (.die 2 x y)

theorem rowProblems_of_check {rows : List Row} {r : Row} (hcheck : checkTriples rows = 0)
    (hr : r ∈ rows) : rowProblems r = 0 := by
  induction rows with
  | nil => cases hr
  | cons r' rows ih =>
      obtain ⟨hhead, hrest⟩ := Nat.add_eq_zero_iff.1 hcheck
      rcases List.mem_cons.1 hr with rfl | hr
      · exact hhead
      · exact ih hrest hr

theorem bounds_of_rowProblems {r : Row} (h : rowProblems r = 0) (hmode : r.mode = "DMA") :
    r.cartOffset + r.length ≤ cartSize ∧ 0x0c000000 ≤ r.dest ∧
      r.dest + r.length ≤ 0x0d000000 := by
  unfold rowProblems at h
  rw [if_neg (not_not.2 hmode)] at h
  have hrom : romSize = cartSize := rfl
  have hlo : ramLo = 0x0c000000 := rfl
  have hhi : ramHi = 0x0d000000 := rfl
  split at h
  · omega
  · split at h
    · omega
    · next hdest => omega

/-- The two halves of an offset. -/
theorem join_halves {off : ℕ} (hoff : off < 2 ^ 28) :
    (((off >>> 16) <<< 16) ||| (off &&& 0xffff)) &&& 0x0fffffff = off := by
  have hlow : off &&& 0xffff = off % 2 ^ 16 := and_low off 16
  have hmask (x : ℕ) : x &&& 0x0fffffff = x % 2 ^ 28 := and_low x 28
  rw [hlow, hmask, Nat.shiftRight_eq_div_pow, Nat.shiftLeft_eq, Nat.or_comm,
    or_high_eq_add (Nat.mod_lt _ (by decide))]
  omega

/-- The service decodes the transfer of the row. -/
theorem Programmed.requestAt {m : Mem} {r : Row} (h : Programmed m r)
    (hoff : r.cartOffset < 2 ^ 28) : requestAt m = ⟨r.cartOffset, r.length, r.dest⟩ := by
  unfold Cfp2Dreamcast.requestAt decodeRequest
  rw [h.offH, h.offL, h.len, h.star, join_halves hoff]

theorem not_bad_iff {r : Row} (h : rowProblems r = 0) (hmode : r.mode = "DMA") :
    ¬ (⟨r.cartOffset, r.length, r.dest⟩ : Request).bad ↔
      r.length ≠ 0 ∧ r.dest + r.length ≤ 0x0cfc0000 := by
  obtain ⟨hrom, hlo, hhi⟩ := bounds_of_rowProblems h hmode
  constructor
  · intro hgood
    obtain ⟨-, -, hfence⟩ := Request.accepted hgood
    refine ⟨fun hlen => hgood (.inl hlen), ?_⟩
    have := hfence
    simp only at this
    omega
  · rintro ⟨hlen, hfence⟩ (hbad | hbad | hbad | hbad)
    · exact hlen hbad
    · simp only at hbad
      omega
    · simp only at hbad
      omega
    · refine hbad fun x hx => ?_
      obtain ⟨hx₁, hx₂⟩ := hx
      simp only at hx₁ hx₂
      omega

/-- A call refuses the request in the mirror exactly when it is bad. -/
theorem notRefused_iff {b : Build} {W : World Mem} {s : State Mem} :
    NotRefused b W s ↔ ¬ (requestAt s.mem).bad := by
  constructor
  · intro h hbad
    obtain ⟨tr, o, s', hexec⟩ := shimCartService_exists b W s
    obtain ⟨loads, tr', -, -, hanswer⟩ := (shimCartService_request b s).exec hexec
    unfold answerRequest at hanswer
    rw [if_pos ((requestAt_refused_iff s.mem).2 hbad)] at hanswer
    have hdies : Dooms ⟨DieCmd, DieCmd,
        fun e => e = Halt.die 2 (requestAt s.mem).off (requestAt s.mem).dest⟩
        (shimDie 2 (requestAt s.mem).off (requestAt s.mem).dest : Shim Unit) :=
      dooms_shimDie (fun _ hc => hc) rfl
    obtain ⟨-, e, rfl, rfl⟩ := hdies.exec hanswer
    exact h tr _ s' hexec _ _ rfl
  · rintro hgood tr o s' hexec x y rfl
    obtain ⟨loads, tr', -, -, hanswer⟩ := (shimCartService_request b s).exec hexec
    unfold answerRequest at hanswer
    rw [if_neg (fun h => hgood ((requestAt_refused_iff s.mem).1 h))] at hanswer
    obtain ⟨a, c, h | h⟩ := (serveRequest_keeps hgood).exec_halt hanswer
    · cases h
    · cases h

/-- A row that the check accepts is served exactly when it is not empty and ends
below the shim. -/
theorem checkTriples_sound_iff {rows : List Row} {r : Row} (hcheck : checkTriples rows = 0)
    (hr : r ∈ rows) (hmode : r.mode = "DMA") {b : Build} {W : World Mem} {s : State Mem}
    (hprog : Programmed s.mem r) :
    NotRefused b W s ↔ r.length ≠ 0 ∧ r.dest + r.length ≤ 0x0cfc0000 := by
  have hrow := rowProblems_of_check hcheck hr
  obtain ⟨hrom, -, -⟩ := bounds_of_rowProblems hrow hmode
  have hsize : cartSize < 2 ^ 28 := by decide
  rw [notRefused_iff, hprog.requestAt (by omega), not_bad_iff hrow hmode]

/-- A state with the mirror programmed for a transfer. -/
def programFor (off len dest : ℕ) : State Mem where
  mem := ofWords [(p2Addr g1Mirror + 0x0c, off >>> 16), (p2Addr g1Mirror + 0x10, off &&& 0xffff),
    (p2Addr g1Mirror + 0x408, len), (p2Addr g1Mirror + 0x404, dest ||| 0x80000000)]
  statics _ := 0
  drive := .idle
  regs _ := 0

theorem checkTriples_sound_sample :
    NotRefused .gdi Devices.absent.world (programFor 0x800000 0x800 0x0c000000) ↔
      0x800 ≠ 0 ∧ 0x0c000000 + 0x800 ≤ 0x0cfc0000 := by
  have hcheck : checkTriples [⟨0x800000, 0x800, 0x0c000000, "DMA"⟩] = 0 := by decide
  exact checkTriples_sound_iff hcheck List.mem_cons_self rfl ⟨by decide +kernel,
    by decide +kernel, by decide +kernel, by decide +kernel⟩

/-- The check accepts a transfer to the last 2 KB of RAM, which the shim refuses. -/
theorem checkTriples_unsound :
    ¬ ∀ (rows : List Row) (r : Row), checkTriples rows = 0 → r ∈ rows → r.mode = "DMA" →
      ∀ (b : Build) (W : World Mem) (s : State Mem), Programmed s.mem r → NotRefused b W s := by
  intro h
  have hbad := h [⟨0x800000, 0x800, 0x0cfff800, "DMA"⟩] _ (by decide) List.mem_cons_self rfl
    .gdi Devices.absent.world (programFor 0x800000 0x800 0x0cfff800) ⟨by decide +kernel,
      by decide +kernel, by decide +kernel, by decide +kernel⟩
  rw [notRefused_iff, ← requestAt_refused_iff] at hbad
  exact hbad (by decide +kernel)

end Cfp2Dreamcast
