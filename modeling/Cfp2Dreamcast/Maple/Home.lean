import Cfp2Dreamcast.Maple.Sends

/-!
# Replies and the shim's own memory

The receive address of a frame is checked once, against a window of 32 MB; nothing
keeps the reply out of the memory of the shim itself. It stays out exactly when the
extent of the answer does.
-/

namespace Cfp2Dreamcast

open Program Memory

/-- The cells of the shim home, 0x0cfc0000 up to 0x0cfd8000. -/
def InHome (c : ℕ) : Prop := 0xfc0000 ≤ c ∧ c < 0xfd8000

instance (c : ℕ) : Decidable (InHome c) := inferInstanceAs (Decidable (_ ∧ _))

/-- No byte of a reply lands in the shim home. -/
def SparesHome (tr : List (Event shimSig)) : Prop :=
  ∀ x ∈ repliesOf tr, ¬ InHome (ramCell x.1)

/-- The answer to the frame, if there is one, misses the shim home. -/
def AnswerApart (d : Embedded) (s : State Mem) (addr rcv : ℕ) : Prop :=
  inWindow rcv → ∀ a, (descriptorAt s.mem addr).answer d (s.statics .pendingJvs) = some a →
    ∀ i < a.length d, ¬ InHome (ramCell (rcv + i))

/-- The addresses of a reply are those of its answer. -/
theorem Sends.mem_replies {W : World Mem} {p : Shim Unit} {s s' : State Mem} {rx : ℕ}
    {bytes : (Static → ℕ) → List UInt8} (hp : Sends W p s rx bytes) {n : ℕ}
    (hbytes : ∀ st, (bytes st).length = n)
    {tr : List (Event shimSig)} (h : Exec (flatMachine W) p s tr (.ret ()) s') {a : ℕ} :
    (∃ v, (a, v) ∈ repliesOf tr) ↔ rx ≤ a ∧ a < rx + n := by
  rcases hp.sound h with ⟨-, hlaid⟩ | ⟨ho, -⟩
  · rw [← exists_laidOut_iff, hlaid, exists_block_iff, hbytes]
  · cases ho

/-- A frame that the walk serves spares the shim home exactly when its answer does. -/
theorem reply_spares_iff (d : Embedded) {W : World Mem} {s : State Mem} {first : Bool}
    {addr rcv : ℕ} (hlo : 0x0c000000 ≤ addr) (hhi : addr < 0x0f000000) :
    (∀ tr o s', Exec (flatMachine W) (serveFrame d first addr rcv) s tr o s' →
      SparesHome tr) ↔ AnswerApart d s addr rcv := by
  constructor
  · intro hall hw a ha i hi
    have hsends : Sends W (serveFrame d first addr rcv) s (p2Addr rcv) (a.bytes d) :=
      sends_serveFrame d hlo hhi hw ha
    obtain ⟨tr, s', h⟩ := hsends.total
    obtain ⟨v, hv⟩ := (hsends.mem_replies (a.bytes_length d) h).2
      ⟨Nat.le_add_right (p2Addr rcv) i, Nat.add_lt_add_left hi _⟩
    have := hall tr _ s' h _ hv
    rwa [ramCell_p2Addr_add] at this
  · intro hapart tr o s' h x hx
    by_cases hw : inWindow rcv
    · cases ha : (descriptorAt s.mem addr).answer d (s.statics .pendingJvs) with
      | none =>
          rw [serveFrame_unanswered d hlo hhi (.inr ha) h] at hx
          exact absurd hx List.not_mem_nil
      | some a =>
          have hsends : Sends W (serveFrame d first addr rcv) s (p2Addr rcv) (a.bytes d) :=
            sends_serveFrame d hlo hhi hw ha
          rcases hsends.sound h with ⟨rfl, -⟩ | ⟨-, hnil⟩
          · obtain ⟨hle, hlt⟩ :=
              (hsends.mem_replies (a.bytes_length d) h).1 ⟨x.2, hx⟩
            obtain ⟨i, hi⟩ := Nat.exists_eq_add_of_le hle
            rw [hi, ramCell_p2Addr_add]
            exact hapart hw a ha i (by omega)
          · rw [hnil] at hx
            exact absurd hx List.not_mem_nil
    · rw [serveFrame_unanswered d hlo hhi (.inl hw) h] at hx
      exact absurd hx List.not_mem_nil

/-- A device request with the reply at the given address. -/
def deviceRequest (rcv : ℕ) : State Mem :=
  { padsInit with
    mem := ofWords [(mmir 0x18, 1), (mmir 0x04, 0x0c100000), (0x0c100000, 0x80000000),
      (0x0c100004, rcv), (0x0c100008, 0x2001)] }

theorem reply_spares_sample :
    AnswerApart .blank (deviceRequest 0x0c200000) 0x0c100000 0x0c200000 ∧
      ∀ tr o s', Exec (flatMachine startPads.world)
        (serveFrame .blank true 0x0c100000 0x0c200000) (deviceRequest 0x0c200000) tr o s' →
          SparesHome tr := by
  have hapart : AnswerApart .blank (deviceRequest 0x0c200000) 0x0c100000 0x0c200000 := by
    intro hw a ha i hi
    have hanswer : (descriptorAt (deviceRequest 0x0c200000).mem 0x0c100000).answer .blank
        ((deviceRequest 0x0c200000).statics .pendingJvs) =
          some (.blob (frameBytes 0x05 0x2001 0 [])) := by
      decide +kernel
    cases hanswer.symm.trans ha
    have hi : i < 4 := hi
    unfold InHome ramCell
    omega
  exact ⟨hapart, (reply_spares_iff .blank (by decide) (by decide)).2 hapart⟩

/-- A receive address inside the shim home is accepted. -/
theorem reply_hits_home :
    ¬ ∀ (W : World Mem) (d : Embedded) (s : State Mem) tr o s',
      Exec (flatMachine W) (shimMapleSteady d) s tr o s' → SparesHome tr := by
  intro hclaim
  have hexec := startPads.exec startPads.in_world (shimMapleSteady .blank)
    (deviceRequest 0x0cfc0000)
  have hany : ((repliesOf ((shimMapleSteady .blank).run startPads.answer
      (deviceRequest 0x0cfc0000)).1).any fun x => decide (InHome (ramCell x.1))) = true := by
    decide +kernel
  obtain ⟨x, hx, hhome⟩ := List.any_eq_true.1 hany
  exact hclaim _ _ _ _ _ _ hexec x hx (of_decide_eq_true hhome)

end Cfp2Dreamcast
