import Cfp2Dreamcast.Maple.Answer

/-!
# The question for the cable

`shim_cable_is_vga` latches what the port shows at the first call; the DIP reply asks it
and loads its own byte 10 back to switch the cable bit off.
-/

namespace Cfp2Dreamcast

open Program Memory

/-- A load of the port. -/
def isPortRead (ev : Event shimSig) : Bool :=
  match ev.cmd with
  | .load16 a => a = 0xff800030
  | _ => false

/-- The bytes at an address. -/
def ramBytes (m : Mem) (a n : ℕ) : List UInt8 := (List.range n).map fun i => m (ramCell (a + i))

/-- The cable was asked for: the latch tells if it is set, and otherwise the port, once. -/
structure Asked (s : State Mem) (tr : List (Event shimSig)) (vga : Bool) (s' : State Mem) :
    Prop where
  latched : s.statics .cableLatch ≤ 3 → s'.statics .cableLatch = s.statics .cableLatch ∧
    tr.countP isPortRead = 0
  reads : 3 < s.statics .cableLatch → ∃ r : ℕ, (⟨Cmd.load16 0xff800030, r⟩ : Event shimSig) ∈ tr ∧
    tr.countP isPortRead = 1 ∧ s'.statics .cableLatch = (r >>> 8) &&& 3
  answer : vga = decide (s'.statics .cableLatch = 0)

/-- Around the question nothing touches the latch or the port. -/
theorem Asked.extend {s s₁ s₂ s' : State Mem} {tr₁ tr tr₂ : List (Event shimSig)} {vga : Bool}
    (h : Asked s₁ tr vga s₂) (hs : s₁.statics = s.statics) (hs' : s'.statics = s₂.statics)
    (h₁ : tr₁.countP isPortRead = 0) (h₂ : tr₂.countP isPortRead = 0) :
    Asked s (tr₁ ++ (tr ++ tr₂)) vga s' := by
  have hcount : (tr₁ ++ (tr ++ tr₂)).countP isPortRead = tr.countP isPortRead := by
    rw [List.countP_append, List.countP_append, h₁, h₂, Nat.zero_add, Nat.add_zero]
  refine ⟨fun hle => ?_, fun hgt => ?_, ?_⟩
  · rw [hcount, hs', ← hs]
    exact h.latched (hs ▸ hle)
  · obtain ⟨r, hr, hone, hlatch⟩ := h.reads (hs ▸ hgt)
    exact ⟨r, by simp [hr], hcount.trans hone, hs' ▸ hlatch⟩
  · rw [hs']
    exact h.answer

section Calls

variable {W : World Mem} {s s' : State Mem} {tr : List (Event shimSig)}

theorem exec_shimCableIsVga {o : Outcome shimSig Bool}
    (h : Exec (flatMachine W) shimCableIsVga s tr o s') :
    ∃ vga, o = .ret vga ∧ s'.mem = s.mem ∧ Asked s tr vga s' := by
  obtain ⟨latch, s₁, tr₁, rfl, ⟨hlatch, rfl⟩, h₁⟩ := h.of_op
  change Exec _ (Prog.whenever (latch > 3) _ >>= fun _ => Prog.op _ _) _ _ _ _ at h₁
  by_cases hset : latch > 3
  · rw [Prog.whenever_pos hset] at h₁
    have hctrl : ¬ isRam 0xff80002c := by decide
    obtain ⟨pctra, s₂, tr₂, rfl, hload, h₂⟩ := h₁.of_op
    obtain ⟨-, rfl⟩ := (step_load32_io hctrl).1 hload
    obtain ⟨_, s₃, tr₃, rfl, hstore, h₃⟩ := h₂.of_op
    have hs₃ := (step_store32_io hctrl).1 hstore
    obtain ⟨pdtra, s₄, tr₄, rfl, ⟨-, rfl⟩, h₄⟩ := h₃.of_op
    obtain ⟨_, s₅, tr₅, rfl, hput, h₅⟩ := h₄.of_op
    have hs₅ : s₅ = { s₄ with
        statics := Function.update s₄.statics .cableLatch ((pdtra >>> 8) &&& 3) } := hput
    obtain ⟨latch', s₆, tr₆, rfl, ⟨hlatch', rfl⟩, h₆⟩ := h₅.of_op
    cases h₆
    subst hs₅ hs₃
    refine ⟨_, rfl, rfl, fun hle => absurd hset (not_lt.2 (hlatch ▸ hle)), fun _ => ?_, ?_⟩
    · exact ⟨pdtra, by simp, rfl, by simp⟩
    · rw [hlatch']
  · rw [Prog.whenever_neg hset] at h₁
    obtain ⟨latch', s₂, tr₂, rfl, ⟨hlatch', rfl⟩, h₂⟩ := h₁.of_op
    cases h₂
    refine ⟨_, rfl, rfl, fun _ => ⟨rfl, rfl⟩, fun hgt => absurd (hlatch ▸ hgt) hset, ?_⟩
    rw [hlatch']

/-- A copy to the receive buffer. -/
theorem exec_flat_xmemcpyReply {a : ℕ} {bs : List UInt8} {o : Outcome shimSig Unit}
    (hram : ∀ i < bs.length, isRam (a + i))
    (h : Exec (flatMachine W) (xmemcpyReply a bs) s tr o s') :
    o = .ret () ∧ s' = { s with mem := setBytes ramCell s.mem a bs } ∧
      tr.countP isPortRead = 0 := by
  induction bs generalizing a s tr with
  | nil =>
      cases h
      exact ⟨rfl, rfl, rfl⟩
  | cons b bs ih =>
      obtain ⟨_, s₁, tr₁, rfl, hstore, hrest⟩ := h.of_op
      have ha : isRam a := hram 0 (Nat.zero_lt_succ _)
      obtain ⟨m, rfl, rfl⟩ := (step_store8 ha).1 hstore
      have hnext : ∀ i < bs.length, isRam (a + 1 + i) := by
        intro i hi
        have := hram (i + 1) (Nat.succ_lt_succ hi)
        rwa [Nat.add_comm i, ← Nat.add_assoc] at this
      obtain ⟨ho, hs', hcount⟩ := ih hnext hrest
      exact ⟨ho, hs', hcount⟩

theorem writes_shimCableIsVga : Writes W shimCableIsVga (· = []) := by
  refine .mute trivial (by simp) fun latch => ?_
  change Writes W (Prog.whenever _ _ >>= fun _ => _) _
  refine Writes.bind (Q := (· = [])) (P := (· = [])) (.whenever (fun _ => ?_) fun _ => rfl)
    (fun _ => .mute trivial (by simp) fun _ => writes_ret _ rfl) ?_
  · exact .mute trivial (by simp) fun _ => .mute (by simp [Mute]) (by simp) fun _ =>
      .mute trivial (by simp) fun _ => .mute trivial (by simp) fun _ => writes_ret _ rfl
  · rintro L L' rfl rfl
    rfl

theorem ramBytes_setBytes (m : Mem) {a : ℕ} {bs : List UInt8} (hlen : bs.length ≤ 2 ^ 24) :
    ramBytes (setBytes ramCell m a bs) a bs.length = bs := by
  refine List.ext_getElem (by simp [ramBytes]) fun i hi hi' => ?_
  simp only [ramBytes, List.getElem_map, List.getElem_range]
  exact setBytes_ramCell m hi' hlen

theorem ramBytes_update (m : Mem) {a n i : ℕ} (hi : i < n) (hn : n ≤ 2 ^ 24) (v : UInt8) :
    ramBytes (Function.update m (ramCell (a + i)) v) a n = (ramBytes m a n).set i v := by
  refine List.ext_getElem (by simp [ramBytes]) fun j hj _ => ?_
  have hjn : j < n := by simpa [ramBytes] using hj
  simp only [ramBytes, List.getElem_map, List.getElem_range, List.getElem_set]
  by_cases hij : i = j
  · rw [if_pos hij, hij, Function.update_self]
  · have hne : ramCell (a + j) ≠ ramCell (a + i) := by
      unfold ramCell
      omega
    rw [if_neg hij, Function.update_of_ne hne]

/-- The DIP byte is loaded back from the reply and loses bit 0, unless the cable is VGA. -/
theorem exec_dipByte {d : Embedded} {rx : ℕ} {vga : Bool} {o : Outcome shimSig Unit}
    (hram : isRam (rx + 10)) (hbytes : ramBytes s.mem rx d.mieSub31.length = d.mieSub31)
    (h : Exec (flatMachine W) (Prog.whenever (vga = false) do
      let b ← load8 .reply (rx + 10)
      store8 .reply (rx + 10) (b &&& 0xfe)) s tr o s') :
    o = .ret () ∧ s'.statics = s.statics ∧ tr.countP isPortRead = 0 ∧
      ramBytes s'.mem rx d.mieSub31.length = dipBytes d vga ∧
      laidOut (storesOf rx d.mieSub31 ++ repliesOf tr) = block rx (dipBytes d vga) := by
  cases vga with
  | true =>
      cases h
      refine ⟨rfl, rfl, rfl, hbytes, ?_⟩
      rw [repliesOf_nil, List.append_nil]
      exact laidOut_storesOf _ _
  | false =>
      obtain ⟨b, s₁, tr₁, rfl, hload, h₁⟩ := h.of_op
      obtain ⟨hb, m, rfl, rfl⟩ := (step_load8 hram).1 hload
      obtain ⟨_, s₂, tr₂, rfl, hstore, h₂⟩ := h₁.of_op
      obtain ⟨m, rfl, rfl⟩ := (step_store8 hram).1 hstore
      cases h₂
      have hold : b = d.mieSub31.getD 10 0 := by
        have hget := congrArg (fun bs => bs.getD 10 0) hbytes
        rw [hb]
        show s.mem (ramCell (rx + 10)) = _
        simpa [ramBytes, List.getD_eq_getElem?_getD, d.sub31_length] using hget
      subst hold
      refine ⟨rfl, rfl, rfl, ?_, funext fun a => ?_⟩
      · show ramBytes (Function.update s.mem (ramCell (rx + 10)) _) rx _ = _
        rw [ramBytes_update _ d.sub31_length, hbytes]
        · rfl
        · exact (d.fits d.mieSub31 (by simp)).trans (by rw [shimCodeMax_eq]; decide)
      · rw [laidOut_append, laidOut_storesOf]
        change _ = block rx (d.mieSub31.set 10 _) a
        rw [block_set rx d.sub31_length]
        rfl

/-- The DIP reply: in RAM, and as the stores that leave it there. -/
theorem exec_dipReply {d : Embedded} {rx : ℕ} {o : Outcome shimSig Unit}
    (hram : ∀ i < d.mieSub31.length, isRam (rx + i))
    (h : Exec (flatMachine W) (dipReply rx d.mieSub31) s tr o s') :
    ∃ vga, o = .ret () ∧ Asked s tr vga s' ∧
      ramBytes s'.mem rx d.mieSub31.length = dipBytes d vga ∧
      laidOut (repliesOf tr) = block rx (dipBytes d vga) := by
  have hlen : d.mieSub31.length ≤ 2 ^ 24 :=
    (d.fits d.mieSub31 (by simp)).trans (by rw [shimCodeMax_eq]; decide)
  rcases h.of_bind with ⟨e, -, hdies⟩ | ⟨tr₁, tr', u, s₁, rfl, hcopy, h⟩
  · cases (exec_flat_xmemcpyReply hram hdies).1
  obtain ⟨-, rfl, hcount⟩ := exec_flat_xmemcpyReply hram hcopy
  rcases h.of_bind with ⟨e, -, hdies⟩ | ⟨tr₂, tr₃, vga, s₂, rfl, hask, h⟩
  · obtain ⟨_, ho, -⟩ := exec_shimCableIsVga hdies
    cases ho
  obtain ⟨vga', ho, hmem, hasked⟩ := exec_shimCableIsVga hask
  cases ho
  have hbytes : ramBytes s₂.mem rx d.mieSub31.length = d.mieSub31 := by
    rw [hmem]
    exact ramBytes_setBytes _ hlen
  obtain ⟨ho, hstatics, hcount', hdip, hlaid⟩ := exec_dipByte (hram 10 d.sub31_length) hbytes h
  refine ⟨vga, ho, hasked.extend rfl hstatics hcount hcount', hdip, ?_⟩
  rw [repliesOf_append, repliesOf_append, ((writes_xmemcpyReply _ _).sound hcopy).2,
    (writes_shimCableIsVga.sound hask).2, List.nil_append]
  exact hlaid

/-- What the DIP reply leaves goes with the latch after it. -/
theorem sends_dipReply {d : Embedded} {rx : ℕ} (hram : ∀ i < d.mieSub31.length, isRam (rx + i)) :
    Sends W (dipReply rx d.mieSub31) s rx (Answer.dip.bytes d) where
  sound h := by
    obtain ⟨vga, ho, hasked, -, hlaid⟩ := exec_dipReply hram h
    refine .inl ⟨ho, ?_⟩
    rw [Answer.bytes, ← hasked.answer]
    exact hlaid
  total := by
    have hlast : ∀ vga : Bool, Writes W (Prog.whenever (vga = false) do
        let b ← load8 .reply (rx + 10)
        store8 .reply (rx + 10) (b &&& 0xfe)) fun _ => True := fun vga =>
      .whenever (fun _ => .mute trivial (by simp) fun b =>
        ⟨fun h => ⟨((writes_store8 _ _).sound h).1, trivial⟩, (writes_store8 _ _).total⟩)
        fun _ => trivial
    have hrest : Writes W (shimCableIsVga >>= fun vga => Prog.whenever (vga = false) do
        let b ← load8 .reply (rx + 10)
        store8 .reply (rx + 10) (b &&& 0xfe)) fun _ => True :=
      writes_shimCableIsVga.bind hlast fun _ _ _ _ => trivial
    have hall : Writes W (dipReply rx d.mieSub31) fun _ => True :=
      (writes_xmemcpyReply rx d.mieSub31).bind (fun _ => hrest) fun _ _ _ _ => trivial
    obtain ⟨tr, ⟨⟩, s', h⟩ := hall.total s
    exact ⟨tr, s', h⟩

end Calls

end Cfp2Dreamcast
