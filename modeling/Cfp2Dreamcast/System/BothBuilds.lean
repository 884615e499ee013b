import Cfp2Dreamcast.Cart.History
import Cfp2Dreamcast.Mastering.Disc
import Cfp2Dreamcast.System.Delivery
import Mathlib.Tactic.IntervalCases

/-!
# One ROM, two builds

`make_gdi.py` and `make_cdi.py` put the same ROM on discs that share neither track nor
FAD, and each build of the shim looks for it in its own place. To the game there is no
difference: whatever calls the one build returns from, the other can return from as well,
and both leave the same memory, with the slices of the ROM file where they were asked for.
-/

namespace Cfp2Dreamcast

open Program Memory

/-- The disc that the script of a build masters from the ROM. -/
inductive MasteredFrom (rom : List UInt8) : Build → Disc → Prop
  | gdi {ldr t : List UInt8} (h : makeGdi ldr rom = some t) :
      MasteredFrom rom .gdi (discOf 450000 t)
  | cdi {ldr ip fs t : List UInt8} (h : makeCdi ldr rom ip fs = some t) :
      MasteredFrom rom .cdi (discOf 11702 t)

section Disc

variable {rom : List UInt8} {b : Build} {disc : Disc}

theorem MasteredFrom.mastered (h : MasteredFrom rom b disc) :
    Mastered b disc fun i => rom.getD i 0 := by
  cases h with
  | gdi h => exact makeGdi_mastered h
  | cdi h => exact makeCdi_mastered h

theorem MasteredFrom.length_eq (h : MasteredFrom rom b disc) : rom.length = cartSize := by
  cases h with
  | gdi h => exact (makeGdi_eq_some h).1.2.2
  | cdi h => exact (makeCdi_eq_some h).1.2.1

end Disc

/-- The states of two machines that the game cannot tell apart: it never looks into the
bounce buffer. -/
structure Alike (s t : State Mem) : Prop where
  mem : AgreeOff (cells shimBounce 2048) s.mem t.mem
  idle_left : s.drive = .idle
  idle_right : t.drive = .idle

theorem Alike.request {s t : State Mem} (h : Alike s t) : requestAt t.mem = requestAt s.mem := by
  refine requestAt_congr fun c _ hhi => h.mem c ?_
  rintro ⟨x, hx, rfl⟩
  have := (ramCell_bounce hx).1
  omega

/-- A word that is zero has zero bytes. -/
theorem byte_of_ramWord {m : Mem} {a : ℕ} (h : ramWord m a = 0) :
    ∀ i < 4, m (ramCell (a + i)) = 0 := by
  have hbytes : (m (ramCell a)).toNat + (m (ramCell (a + 1))).toNat * 2 ^ 8 +
      (m (ramCell (a + 2))).toNat * 2 ^ 16 + (m (ramCell (a + 3))).toNat * 2 ^ 24 = 0 := h
  intro i hi
  refine UInt8.toNat_inj.1 ?_
  rw [UInt8.toNat_zero]
  interval_cases i
  · rw [Nat.add_zero]
    omega
  · omega
  · omega
  · omega

section Calls

variable {cart : ℕ → UInt8} {q : Request} {s s' t t' : State Mem}
  {o o' : Outcome shimSig Unit}

/-- Serving the same request keeps two states alike. -/
theorem Served.alike (h : Served cart q s o s') (h' : Served cart q t o' t') (hst : Alike s t) :
    Alike s' t' := by
  refine ⟨fun c hc => ?_, h.idle, h'.idle⟩
  by_cases hdest : cells q.dest q.len c
  · obtain ⟨x, hx, rfl⟩ := hdest
    obtain ⟨i, hi, rfl⟩ := exists_add_of_range hx
    rw [h.data i hi, h'.data i hi]
  by_cases hgdst : cells sbGdst 4 c
  · obtain ⟨x, hx, rfl⟩ := hgdst
    obtain ⟨i, hi, rfl⟩ := exists_add_of_range hx
    rw [byte_of_ramWord h.done i hi, byte_of_ramWord h'.done i hi]
  · have hout : ¬ (cells q.dest q.len c ∨ cells shimBounce 2048 c ∨ cells sbGdst 4 c) :=
      not_or.2 ⟨hdest, not_or.2 ⟨hc, hgdst⟩⟩
    rw [h'.frame c hout, hst.mem c hc, h.frame c hout]

end Calls

section Builds

variable {rom : List UInt8} {b b' : Build} {W W' : World Mem} {s s' t t' : State Mem}
  {l : List (Change UInt8)}

theorem call_alike {tr tr' : List (Event shimSig)} (hd : MasteredFrom rom b W.disc)
    (hd' : MasteredFrom rom b' W'.disc) (h : Alike s t)
    (hs : Exec (flatMachine W) (shimCartService b) s tr (.ret ()) s')
    (ht : Exec (flatMachine W') (shimCartService b') t tr' (.ret ()) t') : Alike s' t' := by
  have hserved := served_of_returned hd.mastered h.idle_left hs
  have hserved' := served_of_returned hd'.mastered h.idle_right ht
  rw [h.request] at hserved'
  exact hserved.alike hserved' h

/-- Histories that make the same changes keep two states alike. -/
theorem History.alike (hd : MasteredFrom rom b W.disc) (hd' : MasteredFrom rom b' W'.disc)
    (h : Alike s t) (hs : History b W s l s') (ht : History b' W' t l t') : Alike s' t' := by
  induction hs generalizing t' with
  | start =>
      generalize hl : ([] : List (Change UInt8)) = l' at ht
      cases ht with
      | start => exact h
      | game w _ _ _ => simp at hl
      | call _ _ => simp at hl
  | @game l s₁ s₂ w _ hmem hidle ih =>
      generalize hl : l ++ [Change.patch w] = l' at ht
      cases ht with
      | start => simp at hl
      | @game l' t₁ _ w' ht hmem' hidle' =>
          obtain ⟨rfl, hw⟩ := List.append_inj' hl (by simp)
          obtain rfl : w = w' := by simpa using hw
          refine ⟨fun c hc => ?_, hidle, hidle'⟩
          rw [hmem c, hmem' c, (ih ht).mem c hc]
      | call _ _ => simp at hl
  | @call l s₁ s₂ tr _ hexec ih =>
      generalize hl : l ++ [Change.copy (requestAt s₁.mem).copy] = l' at ht
      cases ht with
      | start => simp at hl
      | game w _ _ _ => simp at hl
      | @call l' t₁ _ tr' ht hexec' =>
          obtain ⟨rfl, -⟩ := List.append_inj' hl (by simp)
          exact call_alike hd hd' (ih ht) hexec hexec'

/-- What the one build does the other can do as well. -/
theorem History.follow (hd : MasteredFrom rom b W.disc) (hd' : MasteredFrom rom b' W'.disc)
    (h : Alike s t) (hs : History b W s l s') : ∃ t', History b' W' t l t' := by
  induction hs with
  | start => exact ⟨t, .start⟩
  | @game l s₁ s₂ w hs hmem hidle ih =>
      obtain ⟨t₁, ht⟩ := ih
      exact ⟨{ t₁ with mem := fun c => (w c).getD (t₁.mem c) },
        .game w ht (fun _ => rfl) (hs.alike hd hd' h ht).idle_right⟩
  | @call l s₁ s₂ tr hs hexec ih =>
      obtain ⟨t₁, ht⟩ := ih
      have halike := hs.alike hd hd' h ht
      have hgood := (good_of_returned hexec).1
      rw [← halike.request] at hgood
      obtain ⟨tr', t₂, hexec', -⟩ := exists_served (b := b') (W := W') halike.idle_right hgood
      rw [← halike.request]
      exact ⟨t₂, .call ht hexec'⟩

/-- A copy that nothing has been written over since is a slice of the ROM. -/
theorem History.slice (hd : MasteredFrom rom b W.disc) (hidle : s.drive = .idle)
    {l₁ l₂ : List (Change UInt8)} {k : Copy} (h : History b W s (l₁ ++ .copy k :: l₂) s')
    (huntouched : ∀ x ∈ l₂, ∀ c, k.Covers c → ¬ x.Touches c) :
    (List.range k.len).map (fun i => s'.mem (k.dst + i)) = (rom.drop k.src).take k.len := by
  have hin : k.src + k.len ≤ rom.length := by
    obtain ⟨q, hgood, rfl⟩ := h.good k (by simp)
    exact hd.length_eq ▸ (Request.accepted hgood).area
  refine List.ext_getElem (by simp; omega) fun i hi hi' => ?_
  have hlen : i < k.len := by simpa using hi
  have hcov : k.Covers (k.dst + i) := ⟨Nat.le_add_right _ _, Nat.add_lt_add_left hlen _⟩
  have hmem := (h.refines hd.mastered hidle).1 (k.dst + i) (h.spares (by simp) hcov)
  rw [after_copied hcov fun x hx => huntouched x hx _ hcov, Nat.add_sub_cancel_left] at hmem
  simp only [List.getElem_map, List.getElem_range, List.getElem_take, List.getElem_drop]
  rw [hmem, List.getD_eq_getElem _ _ (by omega)]

/-- The builds cannot be told apart by the game. Whatever it writes and whatever calls the
one build has returned from, the other build, on its own disc of the same ROM, can return
from as well; however the two drives went about it, both have left the same memory but for
the bounce buffer, and every copy that nothing has been written over is a slice of the ROM
file. -/
theorem builds_serve_alike (hd : MasteredFrom rom b W.disc) (hd' : MasteredFrom rom b' W'.disc)
    (h : Alike s t) (hs : History b W s l s') :
    (∃ t', History b' W' t l t') ∧ (∀ t', History b' W' t l t' → Alike s' t') ∧
      ∀ l₁ k l₂, l = l₁ ++ .copy k :: l₂ → (∀ x ∈ l₂, ∀ c, k.Covers c → ¬ x.Touches c) →
        (List.range k.len).map (fun i => s'.mem (k.dst + i)) = (rom.drop k.src).take k.len := by
  refine ⟨hs.follow hd hd' h, fun t' ht => hs.alike hd hd' h ht, ?_⟩
  rintro l₁ k l₂ rfl huntouched
  exact hs.slice hd h.idle_left huntouched

/-- A cart of the size the scripts ask for. -/
def sampleRom : List UInt8 := [0x4e, 0x41, 0x4f, 0x4d, 0x49] ++ List.replicate (romSize - 5) 0

theorem sampleRom_length : sampleRom.length = romSize := by
  rw [sampleRom, List.length_append, List.length_replicate]
  decide

theorem makeGdi_sampleRom : ∃ t, makeGdi [] sampleRom = some t := by
  have hmarks : cdiMarks [] = [] := by
    rw [cdiMarks_eq]
    rfl
  exact ⟨_, if_pos ⟨by decide, by decide, sampleRom_length, by decide, hmarks⟩⟩

theorem makeCdi_sampleRom : ∃ t, makeCdi sampleLoader sampleRom sampleIp [] = some t := by
  have hmarks : cdiMarks sampleLoader = [cartFadCd] := by
    rw [cdiMarks_eq]
    decide
  exact ⟨_, if_pos ⟨hmarks, sampleRom_length, by decide, by decide, by decide⟩⟩

/-- The release of either kind serves the sample request. -/
theorem builds_serve_alike_sample : ∃ t t', makeGdi [] sampleRom = some t ∧
    makeCdi sampleLoader sampleRom sampleIp [] = some t' ∧
    let W : World Mem := ⟨discOf 450000 t, fun m r m' => r = 0 ∧ m' = m⟩
    let W' : World Mem := ⟨discOf 11702 t', fun m r m' => r = 0 ∧ m' = m⟩
    let s : State Mem := ⟨sampleMirror, fun _ => 0, .idle, fun _ => 0⟩
    ∃ s₁ s₂, History .gdi W s [.copy ⟨0x100000, 100, 5000⟩] s₁ ∧
      History .cdi W' s [.copy ⟨0x100000, 100, 5000⟩] s₂ ∧ Alike s₁ s₂ := by
  obtain ⟨t, hgdi⟩ := makeGdi_sampleRom
  obtain ⟨t', hcdi⟩ := makeCdi_sampleRom
  refine ⟨t, t', hgdi, hcdi, ?_⟩
  have hd : MasteredFrom sampleRom .gdi (discOf 450000 t) := .gdi hgdi
  have hd' : MasteredFrom sampleRom .cdi (discOf 11702 t') := .cdi hcdi
  generalize discOf 450000 t = disc at hd ⊢
  generalize discOf 11702 t' = disc' at hd' ⊢
  intro W W' s
  have hst : Alike s s := ⟨.refl _ _, rfl, rfl⟩
  have hcopy : (requestAt s.mem).copy = ⟨0x100000, 100, 5000⟩ := by
    show (requestAt sampleMirror).copy = _
    rw [requestAt_sampleMirror]
    decide
  obtain ⟨tr, s₁, hexec, -⟩ := exists_served (b := .gdi) (W := W) hst.idle_left sampleMirror_good
  have hs : History .gdi W s ([] ++ [.copy (requestAt s.mem).copy]) s₁ := .call .start hexec
  rw [hcopy, List.nil_append] at hs
  obtain ⟨hfollow, halike, -⟩ := @builds_serve_alike _ _ _ W W' _ _ _ _ hd hd' hst hs
  obtain ⟨s₂, hs₂⟩ := hfollow
  exact ⟨s₁, s₂, hs, hs₂, halike s₂ hs₂⟩

end Builds

end Cfp2Dreamcast
