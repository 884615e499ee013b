import Cfp2Dreamcast.Cart.Deliver
import Cfp2Dreamcast.Cart.ServiceGuard
import Cfp2Dreamcast.Machine.Devices

/-!
# The cart service end to end

On main RAM without a cache, one call of `shim_cart_service` refuses a bad
request before it touches anything, dies in the GD layer without clearing the
SB_GDST mirror word, or delivers the requested bytes of the cart and clears it.
-/

namespace Cfp2Dreamcast

open Program Memory

/-- Without a cache every stored byte stays. -/
def flatDurable : flatBus.Durable where
  holds m a v := m (ramCell a) = v
  ready _ _ _ := True
  apart a b := ramCell a ≠ ramCell b
  direct _ := True
  view_eq h := h
  touch_holds ht h := by
    cases ht
    exact h
  touch_ready _ _ := trivial
  store_holds hst _ := by
    cases hst
    exact Function.update_self _ _ _
  store_ready _ _ := trivial
  apart_holds hne hst h := by
    cases hst
    rw [Function.update_of_ne hne]
    exact h
  apart_ready _ _ _ := trivial
  discard_holds _ hd h := by
    cases hd
    exact h
  discard_ready _ _ _ := trivial
  discard_fresh _ _ _ _ := trivial

theorem ramCell_bounce {x : ℕ} (hx : range shimBounce 2048 x) :
    0xfca000 ≤ ramCell x ∧ ramCell x < 0xfca800 ∧ ramCell x = x - 0x8c000000 := by
  obtain ⟨hlo, hhi⟩ := hx
  rw [shimBounce_eq] at hlo hhi
  unfold ramCell
  omega

theorem Accepted.ramCell {off len dest i : ℕ} (h : Accepted off len dest) (hi : i < len) :
    ramCell (p2Addr dest + i) = dest + i - 0x0c000000 := by
  obtain ⟨-, hlow, hhigh⟩ := h
  rw [ramCell_p2Addr_add]
  unfold Cfp2Dreamcast.ramCell
  omega

theorem Accepted.ramCell_range {off len dest x : ℕ} (h : Accepted off len dest)
    (hx : range (p2Addr dest) len x) :
    ∃ i < len, x = p2Addr dest + i ∧ Cfp2Dreamcast.ramCell x = dest + i - 0x0c000000 ∧
      dest + i < 0x0cfc0000 := by
  obtain ⟨i, hi, rfl⟩ := exists_add_of_range hx
  have := h.high
  exact ⟨i, hi, rfl, h.ramCell hi, by omega⟩

theorem flatDurable_fits {off len dest : ℕ} (h : Accepted off len dest) :
    flatDurable.Fits dest len where
  direct _ _ := trivial
  dest_apart i hi x hx hne := by
    obtain ⟨j, hj, rfl, hcell, -⟩ := h.ramCell_range hx
    have := h.low
    show ramCell _ ≠ ramCell _
    rw [hcell, h.ramCell hi]
    omega
  dest_bounce i hi x hx := by
    have hcell := (ramCell_bounce hx).1
    have := h.high
    show ramCell _ ≠ ramCell _
    rw [h.ramCell hi]
    omega
  bounce_apart i hi x hx hne := by
    have hcell := (ramCell_bounce (range_add hi)).2.2
    have hcell' := (ramCell_bounce hx).2.2
    have hlo := hx.1
    show ramCell _ ≠ ramCell _
    rw [hcell, hcell']
    rw [shimBounce_eq] at *
    omega
  bounce_dest i hi x hx := by
    obtain ⟨j, hj, rfl, hcell, hlt⟩ := h.ramCell_range hx
    have hcell' := (ramCell_bounce (range_add hi)).1
    show ramCell _ ≠ ramCell _
    rw [hcell]
    omega
  bounce_ready _ _ _ _ := trivial

/-! What a call may end in. -/

/-- The cells behind the addresses `a`, ..., `a + n - 1`. -/
def cells (a n : ℕ) : ℕ → Prop := cellsOf (range a n)

theorem cells_p2Addr {a n c : ℕ} (h : cells (p2Addr a) n c) : cells a n c := by
  obtain ⟨x, hx, rfl⟩ := h
  obtain ⟨i, hi, rfl⟩ := exists_add_of_range hx
  exact ⟨a + i, range_add hi, (ramCell_p2Addr_add a i).symm⟩

/-- The request in the G1 register mirror. -/
def requestAt (m : Mem) : Request :=
  decodeRequest (ramWord m (p2Addr g1Mirror + 0x0c)) (ramWord m (p2Addr g1Mirror + 0x10))
    (ramWord m (p2Addr g1Mirror + 0x408)) (ramWord m (p2Addr g1Mirror + 0x404))

/-- The call reads the mirror and enters `shim_die(2)` with the machine
unchanged. -/
def Refused (W : World Mem) (q : Request) (s : State Mem) (tr : List (Event shimSig))
    (o : Outcome shimSig Unit) (s' : State Mem) : Prop :=
  ∃ loads tr', tr = loads ++ tr' ∧ (∀ ev ∈ loads, ∃ a, ev.cmd = Cmd.load32 .own a) ∧
    Exec (flatMachine W) (shimDie 2 q.off q.dest) s tr' o s'

/-- The call dies in the GD layer, with the SB_GDST word as it was. -/
structure Failed (q : Request) (s : State Mem) (o : Outcome shimSig Unit)
    (s' : State Mem) : Prop where
  outcome : ∃ a b, o = .halt (.die 4 a b) ∨ o = .halt (.die 5 a b)
  pending : ramWord s'.mem sbGdst = ramWord s.mem sbGdst
  frame : AgreeOff (fun c => cells q.dest q.len c ∨ cells shimBounce 2048 c ∨
    cells shimErr 16 c) s.mem s'.mem

/-- The call returns with the bytes of the cart at the destination. -/
structure Served (cart : ℕ → UInt8) (q : Request) (s : State Mem)
    (o : Outcome shimSig Unit) (s' : State Mem) : Prop where
  outcome : o = .ret ()
  data : ∀ i < q.len, s'.mem (ramCell (q.dest + i)) = cart (q.off + i)
  done : ramWord s'.mem sbGdst = 0
  frame : AgreeOff (fun c => cells q.dest q.len c ∨ cells shimBounce 2048 c ∨
    cells sbGdst 4 c) s.mem s'.mem
  idle : s'.drive = .idle

theorem ramCell_sbGdst {i : ℕ} (hi : i < 4) : ramCell (sbGdst + i) = 0xfc8c18 + i := by
  have h : sbGdst = 0xacfc8c18 := by decide
  rw [h]
  unfold ramCell
  omega

theorem ramCell_shimErr {x : ℕ} (hx : range shimErr 16 x) :
    0xfc8000 ≤ ramCell x ∧ ramCell x < 0xfc8010 := by
  obtain ⟨hlo, hhi⟩ := hx
  rw [shimErr_eq] at hlo hhi
  unfold ramCell
  omega

theorem Accepted.cells {off len dest c : ℕ} (h : Accepted off len dest)
    (hc : cells dest len c) : c < 0xfc0000 := by
  obtain ⟨x, ⟨hlo, hhi⟩, rfl⟩ := hc
  obtain ⟨-, hlow, hhigh⟩ := h
  unfold Cfp2Dreamcast.ramCell
  omega

/-- The SB_GDST word lies off everything a `cart_read` may write. -/
theorem Accepted.sbGdst_off {off len dest i : ℕ} (h : Accepted off len dest) (hi : i < 4) :
    ¬ (Cfp2Dreamcast.cells dest len (Cfp2Dreamcast.ramCell (sbGdst + i)) ∨
      Cfp2Dreamcast.cells shimBounce 2048 (Cfp2Dreamcast.ramCell (sbGdst + i)) ∨
      Cfp2Dreamcast.cells shimErr 16 (Cfp2Dreamcast.ramCell (sbGdst + i))) := by
  rw [ramCell_sbGdst hi]
  rintro (hc | ⟨x, hx, hc⟩ | ⟨x, hx, hc⟩)
  · have := h.cells hc
    omega
  · have := ramCell_bounce hx
    omega
  · have := ramCell_shimErr hx
    omega

section Cases

variable {W : World Mem} {b : Build} {cart : ℕ → UInt8} {q : Request} {s s' : State Mem}
  {tr : List (Event shimSig)} {o : Outcome shimSig Unit}

/-- The frame of a `cart_read`, in cells. -/
theorem cartRead_frame (hq : ¬ q.bad) (hidle : s.drive = .idle)
    (h : Exec (flatMachine W) (cartRead b q.off q.len q.dest) s tr o s') :
    AgreeOff (fun c => cells q.dest q.len c ∨ cells shimBounce 2048 c ∨
      (o ≠ .ret () ∧ cells shimErr 16 c)) s.mem s'.mem := by
  have hacc := q.accepted hq
  have hkeeps := cartRead_keeps b hacc
  have hwithin : ∀ ev ∈ tr, Cmd.Within (fun a => range (p2Addr q.dest) q.len a ∨
      range shimBounce 2048 a ∨ (o ≠ .ret () ∧ range (p2Addr shimErr) 16 a))
      (blocksOf q.dest q.len) ev.cmd := by
    have hcmd : ∀ ev : Event shimSig, (readGuard b q.dest q.len).cmd ev.cmd → Cmd.Within (fun a =>
        range (p2Addr q.dest) q.len a ∨ range shimBounce 2048 a ∨
        (o ≠ .ret () ∧ range (p2Addr shimErr) 16 a)) (blocksOf q.dest q.len) ev.cmd :=
      fun ev hev => CartCmd.within hev
        (fun rd hrd a ha => (hrd.mem ha).imp_right .inl) fun a ha => .inl ha
    intro ev hev
    by_cases ho : o = .ret ()
    · subst ho
      exact hcmd ev (hkeeps.exec_ret h ev hev)
    · rcases hkeeps.exec h ev hev with hc | hc
      · exact hcmd ev hc
      · exact DieCmd.within hc fun i hi => .inr (.inr ⟨ho, range_add hi⟩)
  obtain ⟨hrun, -⟩ := exec_run h hwithin (hidle ▸ Drive.idle_within _)
  refine (flat_run_agreeOff hrun).mono ?_
  rintro c ⟨a, ha | ha | ⟨ho, ha⟩, rfl⟩
  · exact .inl (cells_p2Addr ⟨a, ha, rfl⟩)
  · exact .inr (.inl ⟨a, ha, rfl⟩)
  · exact .inr (.inr ⟨ho, cells_p2Addr ⟨a, ha, rfl⟩⟩)

/-- The progress bar leaves RAM and the drive alone and always returns. -/
theorem loadbar_quiet (len : ℕ) (hidle : s.drive = .idle) :
    wp (flatMachine W) (Prog.whenever (b.loadbar = true) (loadbarStep len))
      (fun _ o s' => o = .ret () ∧ s'.mem = s.mem ∧ s'.drive = .idle) s := by
  have hkeeps : Keeps barGuard (Prog.whenever (b.loadbar = true) (loadbarStep len)) :=
    Keeps.whenever fun _ => loadbarStep_keeps len
  rw [wp_iff_exec]
  intro tr o s' h
  have hcmd : ∀ ev ∈ tr, BarCmd ev.cmd := fun ev hev =>
    (hkeeps.exec h ev hev).resolve_right fun h => h
  cases o with
  | halt e => exact (hkeeps.exec_halt h).elim
  | ret a =>
      obtain ⟨hrun, -⟩ := exec_run h (fun ev hev => (hcmd ev hev).within (fun _ => False)
        fun _ => False) (hidle ▸ Drive.idle_within _)
      refine ⟨rfl, funext fun c => flat_run_agreeOff hrun c ?_, ?_⟩
      · rintro ⟨a, ha, -⟩
        exact ha
      · rw [exec_drive h, hidle]
        intro ev hev r4 block r7 heq
        have := hcmd ev hev
        rw [heq] at this
        exact this

theorem serveRequest_outcome (hdisc : Mastered b W.disc cart) (hidle : s.drive = .idle)
    (hq : ¬ q.bad) :
    wp (flatMachine W) (serveRequest b q)
      (fun _ o s' => Failed q s o s' ∨ Served cart q s o s') s := by
  have hacc := q.accepted hq
  have hread := cartRead_delivers b (flatDurable_fits hacc) hacc hdisc hidle
    fun i hi _ => trivial
  refine wp_seq (hread.and ((wp_iff_exec _ _).2 fun tr o s' h =>
    And.intro (cartRead_frame (b := b) hq hidle h)
      fun e (he : o = .halt e) => (cartRead_keeps b hacc).exec_halt (he ▸ h))) ?_ ?_
  · rintro tr a s₁ ⟨hdeliv, hframe, -⟩
    obtain ⟨hidle₁, hheld⟩ := hdeliv a rfl
    have hram : isRam (p2Addr g1Mirror + 0x418) := by decide
    let s₂ : State Mem :=
      { s₁ with mem := setBytes ramCell s₁.mem (p2Addr g1Mirror + 0x418) (wordBytes 0) }
    have hidle₂ : s₂.drive = .idle := hidle₁
    refine (wp_store32_ram hram).2 ((loadbar_quiet q.len hidle₂).mono ?_)
    rintro tr' o s' ⟨rfl, hmem, hidle'⟩
    have hoff : AgreeOff (fun c => cells q.dest q.len c ∨ cells shimBounce 2048 c)
        s.mem s₁.mem := hframe.mono fun c hc => hc.imp_right fun h =>
      h.resolve_right fun h => h.1 rfl
    have hgdst : AgreeOff (cells sbGdst 4) s₁.mem s'.mem := by
      rw [hmem]
      exact AgreeOff.setBytes (fun i hi => ⟨_, range_add hi, rfl⟩) _
    refine .inr ⟨rfl, fun i hi => ?_, ?_, ?_, hidle'⟩
    · have hcell : ¬ cells sbGdst 4 (ramCell (q.dest + i)) := by
        rintro ⟨x, hx, hc⟩
        obtain ⟨j, hj, rfl⟩ := exists_add_of_range hx
        have := hacc.cells ⟨_, range_add hi, rfl⟩
        rw [← hc, ramCell_sbGdst hj] at this
        omega
      rw [hgdst _ hcell, ← ramCell_p2Addr_add]
      exact hheld i hi
    · rw [hmem]
      exact ramWord_setBytes _ (by decide)
    · exact (hoff.mono fun c hc => hc.imp_right .inl).trans
        (hgdst.mono fun c hc => .inr (.inr hc))
  · rintro tr e s₁ ⟨-, hframe, hhalt⟩
    have hoff := hframe.mono fun c hc => hc.imp_right (Or.imp_right And.right)
    refine .inl ⟨?_, ?_, hoff⟩
    · obtain ⟨x, y, rfl | rfl⟩ := hhalt e rfl
      · exact ⟨x, y, .inl rfl⟩
      · exact ⟨x, y, .inr rfl⟩
    · exact ramWord_agreeOff hoff fun i hi => hacc.sbGdst_off hi

/-- A call is four loads of the mirror followed by the refusal or the service of
the request found there. -/
theorem shimCartService_request (b : Build) (s : State Mem) :
    wp (flatMachine W) (shimCartService b) (fun tr o s' => ∃ loads tr', tr = loads ++ tr' ∧
      (∀ ev ∈ loads, ∃ a, ev.cmd = Cmd.load32 .own a) ∧
      Exec (flatMachine W) (answerRequest b (requestAt s.mem)) s tr' o s') s := by
  have h₁ : isRam (p2Addr g1Mirror + 0x0c) := by decide
  have h₂ : isRam (p2Addr g1Mirror + 0x10) := by decide
  have h₃ : isRam (p2Addr g1Mirror + 0x408) := by decide
  have h₄ : isRam (p2Addr g1Mirror + 0x404) := by decide
  unfold shimCartService
  simp only [Prog.op_bind, Prog.ret_bind]
  rw [wp_load32_ram h₁, wp_load32_ram h₂, wp_load32_ram h₃, wp_load32_ram h₄, wp_iff_exec]
  intro tr o s' h
  refine ⟨[_, _, _, _], tr, rfl, ?_, h⟩
  simp

theorem serviceGuard_no_engine {c : Cmd}
    (hc : (serviceGuard b q).cmd c ∨ (serviceGuard b q).last c) : c ≠ .engine := by
  rintro rfl
  rcases hc with (h | h | h) | h
  · exact h
  · cases h
  · exact h
  · exact h

end Cases

/-- The request in the mirror passes the guard of the code exactly when it is not
bad. -/
theorem requestAt_refused_iff (m : Mem) : (requestAt m).refused ↔ (requestAt m).bad :=
  have h := decodeRequest_bounds _ _ _ _
  Request.refused_iff_bad h.1 h.2

/-- `shim_die(2)` halts with code 2. -/
theorem Refused.outcome {W : World Mem} {q : Request} {s s' : State Mem}
    {tr : List (Event shimSig)} {o : Outcome shimSig Unit} (h : Refused W q s tr o s') :
    o = .halt (.die 2 q.off q.dest) := by
  obtain ⟨loads, tr', -, -, hdie⟩ := h
  have hdies : Dooms ⟨DieCmd, DieCmd, fun e => e = Halt.die 2 q.off q.dest⟩
      (shimDie 2 q.off q.dest : Shim Unit) := dooms_shimDie (fun _ hc => hc) rfl
  obtain ⟨e, rfl, rfl⟩ := (hdies.exec hdie).2
  rfl

/-- A call runs to an end, whatever it finds in the mirror. -/
theorem shimCartService_exists (b : Build) (W : World Mem) (s : State Mem) :
    ∃ tr o s', Exec (flatMachine W) (shimCartService b) s tr o s' := by
  have hkeeps : Keeps ⟨fun c : Cmd => c ≠ .engine, fun c : Cmd => c ≠ .engine,
      fun _ => True⟩ (shimCartService b) := by
    refine .op (by simp) fun offH => .op (by simp) fun offL => .op (by simp) fun len =>
      .op (by simp) fun star => ?_
    show Keeps _ (ite _ _ _)
    split
    · refine (dooms_shimDie ?_ trivial).keeps
      rintro c hc rfl
      exact hc
    · next hq =>
      have hbounds := decodeRequest_bounds offH offL len star
      rw [Request.refused_iff_bad hbounds.1 hbounds.2] at hq
      exact (serveRequest_keeps hq).mono
        (fun c hc => serviceGuard_no_engine (.inl hc))
        (fun c hc => serviceGuard_no_engine (b := b) (.inr hc)) fun _ _ => trivial
  exact hkeeps.exists_exec (fun s c hc => flat_total (hc.elim id id) s) s

/-- A mirror that asks for 5000 bytes from offset 100 to `0x0c100000`. -/
def sampleMirror : Mem := fun c =>
  if c = 0xfc8810 then 100
  else if c = 0xfc8c06 then 0x10
  else if c = 0xfc8c07 then 0x8c
  else if c = 0xfc8c08 then 0x88
  else if c = 0xfc8c09 then 0x13
  else 0

theorem requestAt_sampleMirror : requestAt sampleMirror = ⟨100, 5000, 0x0c100000⟩ := by
  decide

end Cfp2Dreamcast
