import Cfp2Dreamcast.Memory.Splice
import Mathlib.Algebra.Order.Ring.Int

/-!
# Editing a file in place

An edit works on an open file: its contents and a position. It returns a value or
raises, and either way leaves the file as it then is. `Edits p f Q` says that `p` ends
in `Q` on `f`, or raises with the contents of `f` untouched.
-/

namespace Memory

structure OpenFile where
  bytes : List UInt8
  pos : ℕ

def Edit (α : Type) := OpenFile → Except String α × OpenFile

namespace Edit

variable {α β : Type}

def bind (p : Edit α) (k : α → Edit β) : Edit β := fun f =>
  match p f with
  | (.ok a, f') => k a f'
  | (.error e, f') => (.error e, f')

instance : Monad Edit where
  pure a := fun f => (.ok a, f)
  bind := bind

/-- `assert c, msg`. -/
def check (c : Prop) [Decidable c] (msg : String) : Edit Unit := fun f =>
  if c then (.ok (), f) else (.error msg, f)

/-- `f.seek(a)`. -/
def seek (a : ℤ) : Edit Unit := fun f =>
  if a < 0 then (.error "negative seek value", f) else (.ok (), { f with pos := a.toNat })

/-- `f.read(n)`: fewer bytes at the end of the file. -/
def read (n : ℕ) : Edit (List UInt8) := fun f =>
  let bs := (f.bytes.drop f.pos).take n
  (.ok bs, { f with pos := f.pos + bs.length })

/-- `f.write(bs)`: a gap behind the end of the file is filled with zeros. -/
def write (bs : List UInt8) : Edit Unit := fun f =>
  (.ok (), ⟨splice (f.bytes ++ List.replicate (f.pos - f.bytes.length) 0) f.pos bs,
    f.pos + bs.length⟩)

/-- Open the file, edit it and close it: how the edit ended, and the new contents. -/
def run (p : Edit α) (bytes : List UInt8) : Except String α × List UInt8 :=
  ((p ⟨bytes, 0⟩).1, (p ⟨bytes, 0⟩).2.bytes)

end Edit

open Edit

variable {α β : Type} {f : OpenFile} {Q : β → List UInt8 → Prop}

def Edits (p : Edit α) (f : OpenFile) (Q : α → List UInt8 → Prop) : Prop :=
  match p f with
  | (.ok a, f') => Q a f'.bytes
  | (.error _, f') => f'.bytes = f.bytes

theorem edits_pure {b : β} (h : Q b f.bytes) : Edits (pure b) f Q := h

/-! What follows an operation that goes well. -/

theorem check_bind {c : Prop} {_ : Decidable c} {msg : String} {k : Unit → Edit β} (hc : c) :
    (check c msg >>= k) f = k () f := by
  have hcheck : check c msg f = (.ok (), f) := if_pos hc
  change Edit.bind (check c msg) k f = _
  rw [Edit.bind, hcheck]

theorem seek_bind {a : ℤ} {pos : ℕ} {k : Unit → Edit β} (ha : a = pos) :
    (seek a >>= k) f = k () ⟨f.bytes, pos⟩ := by
  have hseek : seek a f = (.ok (), ⟨f.bytes, pos⟩) := by
    rw [ha, seek, if_neg (by omega), Int.toNat_natCast]
  change Edit.bind (seek a) k f = _
  rw [Edit.bind, hseek]

theorem read_bind {n : ℕ} {k : List UInt8 → Edit β} :
    ∃ pos, (read n >>= k) f = k ((f.bytes.drop f.pos).take n) ⟨f.bytes, pos⟩ := ⟨_, rfl⟩

theorem edits_check {c : Prop} {_ : Decidable c} {msg : String} {k : Unit → Edit β}
    (h : c → Edits (k ()) f Q) : Edits (check c msg >>= k) f Q := by
  by_cases hc : c
  · rw [Edits, check_bind hc]
    exact h hc
  · have hcheck : check c msg f = (.error msg, f) := if_neg hc
    change Edits (Edit.bind (check c msg) k) f Q
    unfold Edits Edit.bind
    rw [hcheck]

theorem edits_seek {a : ℤ} {k : Unit → Edit β}
    (h : ∀ pos : ℕ, (pos : ℤ) = a → Edits (k ()) ⟨f.bytes, pos⟩ Q) :
    Edits (seek a >>= k) f Q := by
  by_cases ha : a < 0
  · have hseek : seek a f = (.error "negative seek value", f) := if_pos ha
    change Edits (Edit.bind (seek a) k) f Q
    unfold Edits Edit.bind
    rw [hseek]
  · have hpos := Int.toNat_of_nonneg (not_lt.1 ha)
    rw [Edits, seek_bind hpos.symm]
    exact h a.toNat hpos

theorem edits_read {n : ℕ} {k : List UInt8 → Edit β}
    (h : ∀ data pos, data = (f.bytes.drop f.pos).take n → Edits (k data) ⟨f.bytes, pos⟩ Q) :
    Edits (read n >>= k) f Q := h _ _ rfl

theorem edits_write {bs : List UInt8} {Q : Unit → List UInt8 → Prop}
    (h : Q () (splice (f.bytes ++ List.replicate (f.pos - f.bytes.length) 0) f.pos bs)) :
    Edits (write bs) f Q := h

theorem Edits.mono {p : Edit β} {Q' : β → List UInt8 → Prop} (h : Edits p f Q)
    (hQ : ∀ b bytes, Q b bytes → Q' b bytes) : Edits p f Q' := by
  unfold Edits at h ⊢
  split
  · next b f' hp =>
    rw [hp] at h
    exact hQ b _ h
  · next e f' hp =>
    rw [hp] at h
    exact h

/-- What an edit that raises leaves. -/
theorem Edits.run_error {p : Edit α} {bytes : List UInt8} {Q : α → List UInt8 → Prop}
    (h : Edits p ⟨bytes, 0⟩ Q) {e : String} (he : (p.run bytes).1 = .error e) :
    (p.run bytes).2 = bytes := by
  unfold Edits at h
  unfold Edit.run at he ⊢
  split at h
  · next a f' hp =>
    rw [hp] at he
    cases he
  · next e' f' hp =>
    rw [hp]
    exact h

theorem Edits.run_ok {p : Edit α} {bytes : List UInt8} {Q : α → List UInt8 → Prop}
    (h : Edits p ⟨bytes, 0⟩ Q) {a : α} (ha : (p.run bytes).1 = .ok a) :
    Q a (p.run bytes).2 := by
  unfold Edits at h
  unfold Edit.run at ha ⊢
  split at h
  · next a' f' hp =>
    rw [hp] at ha ⊢
    cases ha
    exact h
  · next e' f' hp =>
    rw [hp] at ha
    cases ha

end Memory
