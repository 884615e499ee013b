import Cfp2Dreamcast.Maple.Complete
import Cfp2Dreamcast.Maple.Responder

/-!
# The transport refines the responder

A run is any number of calls of `shim_maple_steady`, with the game in between. The
latch of the shim holds the JVS command that the history of the run has on the way,
each list is answered as the responder owes it, and the replies are the only bytes
outside the shim home that a call changes after the engine.
-/

namespace Cfp2Dreamcast

open Program Memory

section Walk

variable {d : Embedded} {hist : List Descriptor} {x : Slot} {xs slots : List Slot}

theorem owed_cons (R : List Descriptor → Descriptor → Option Answer) :
    owed R hist (x :: xs) = owed R hist [x] ++ owed R (historyAfter hist [x]) xs := by
  by_cases hx : x.Start
  · simp only [owed, historyAfter, if_pos hx, List.cons_append, List.nil_append]
  · simp only [owed, historyAfter, if_neg hx, List.nil_append]

theorem FairList.tail (h : FairList d hist (x :: xs)) : FairList d (historyAfter hist [x]) xs := by
  obtain ⟨hwindow, hhandled, hapart, hlist, hhome⟩ := h
  rw [owed_cons] at hapart hlist hhome
  exact ⟨fun y hy => hwindow y (List.mem_cons_of_mem _ hy),
    fun y hy => hhandled y (List.mem_cons_of_mem _ hy), (List.pairwise_append.1 hapart).2.1,
    fun w hw c hc y hy => hlist w (List.mem_append_right _ hw) c hc y (List.mem_cons_of_mem _ hy),
    fun w hw => hhome w (List.mem_append_right _ hw)⟩

/-- The list has been walked from `s` to `s'`. -/
structure ListServed (d : Embedded) (hist : List Descriptor) (slots : List Slot) (s : State Mem)
    (tr : List (Event shimSig)) (s' : State Mem) : Prop where
  statics : s'.statics = assigned s.statics tr
  pending : s'.statics .pendingJvs = (onTheWay (historyAfter hist slots)).getD 0xff
  replies : AllReplied d s'.mem s.statics tr (owed (respond d) hist slots)
  apart : ∀ c, ¬ InPadBuffers c → (∀ w ∈ owed (respond d) hist slots, ¬ ReplyCell d w c) →
    s'.mem c = s.mem c

/-- The stores of the replies lie where they are owed. -/
def Confined (d : Embedded) (tr : List (Event shimSig)) (ws : List (Slot × Option Answer)) :
    Prop :=
  ∀ x ∈ repliesOf tr, ∃ w ∈ ws, p2Addr w.1.rcv ≤ x.1 ∧ x.1 < p2Addr w.1.rcv + replyLength d w

theorem Confined.of_quiet {tr : List (Event shimSig)} (h : repliesOf tr = [])
    (ws : List (Slot × Option Answer)) : Confined d tr ws := by
  intro x hx
  rw [h] at hx
  exact absurd hx List.not_mem_nil

theorem Confined.append {tr tr' : List (Event shimSig)} {ws ws' : List (Slot × Option Answer)}
    (h : Confined d tr ws) (h' : Confined d tr' ws') : Confined d (tr ++ tr') (ws ++ ws') := by
  intro x hx
  rw [repliesOf_append] at hx
  rcases List.mem_append.1 hx with hx | hx
  · obtain ⟨w, hw, hin⟩ := h x hx
    exact ⟨w, List.mem_append_left _ hw, hin⟩
  · obtain ⟨w, hw, hin⟩ := h' x hx
    exact ⟨w, List.mem_append_right _ hw, hin⟩

/-- A reply stays where it is as long as its cells do. -/
theorem Replied.mono {m m' : Mem} {st : Static → ℕ} {tr : List (Event shimSig)}
    {w : Slot × Option Answer} (h : Replied d m st tr w)
    (hm : ∀ c, ReplyCell d w c → m' c = m c) : Replied d m' st tr w := by
  obtain ⟨hhead, a, bs, ha, rfl, hlaid, hbytes⟩ := h
  refine ⟨hhead, a, _, ha, rfl, hlaid, fun i hi => ?_⟩
  rw [hm _ ⟨a, ha, i, a.bytes_length d _ ▸ hi, rfl⟩]
  exact hbytes i hi

section Replies

variable {m m' : Mem} {st : Static → ℕ} {tr tr' : List (Event shimSig)}
  {ws ws' : List (Slot × Option Answer)}

theorem AllReplied.mono (h : AllReplied d m st tr ws)
    (hm : ∀ w ∈ ws, ∀ c, ReplyCell d w c → m' c = m c) : AllReplied d m' st tr ws := by
  induction h with
  | nil h => exact .nil h
  | cons hquiet hw _ ih =>
      exact .cons hquiet (hw.mono (hm _ List.mem_cons_self))
        (ih fun w hw => hm w (List.mem_cons_of_mem _ hw))

/-- What comes before a trace and is no reply. -/
theorem AllReplied.after_quiet (hquiet : repliesOf tr = [])
    (h : AllReplied d m (assigned st tr) tr' ws) : AllReplied d m st (tr ++ tr') ws := by
  cases h with
  | nil h =>
      refine .nil ?_
      rw [repliesOf_append, hquiet, h, List.nil_append]
  | cons hquiet' hw hws =>
      rw [← assigned_append] at hw
      rw [← assigned_append, ← List.append_assoc] at hws
      rw [← List.append_assoc]
      refine .cons ?_ hw hws
      rw [repliesOf_append, hquiet, hquiet', List.nil_append]

theorem AllReplied.append (h : AllReplied d m st tr ws)
    (h' : AllReplied d m (assigned st tr) tr' ws') : AllReplied d m st (tr ++ tr') (ws ++ ws') := by
  induction h with
  | nil hquiet => exact .after_quiet hquiet h'
  | cons hquiet hw _ ih =>
      rw [← List.append_assoc, assigned_append] at h'
      have hrest := ih h'
      rw [List.append_assoc, List.append_assoc]
      exact .cons hquiet hw hrest

/-- The replies store at the addresses that are owed and nowhere else. -/
theorem AllReplied.stores_iff (h : AllReplied d m st tr ws) {a : ℕ} :
    (∃ v, (a, v) ∈ repliesOf tr) ↔
      ∃ w ∈ ws, p2Addr w.1.rcv ≤ a ∧ a < p2Addr w.1.rcv + replyLength d w := by
  induction h with
  | nil h => simp [h]
  | @cons st tr₀ tr tr' w ws hquiet hw _ ih =>
      obtain ⟨-, ans, bs, hans, rfl, hlaid, -⟩ := hw
      have hhead : (∃ v, (a, v) ∈ repliesOf tr) ↔
          p2Addr w.1.rcv ≤ a ∧ a < p2Addr w.1.rcv + replyLength d w := by
        rw [replyLength, hans, ← exists_laidOut_iff, hlaid, exists_block_iff, ans.bytes_length]
        rfl
      rw [repliesOf_append, hquiet, List.nil_append, repliesOf_append]
      simp only [List.mem_append, exists_or, hhead, ih, List.mem_cons, exists_eq_or_imp]

theorem AllReplied.confined (h : AllReplied d m st tr ws) : Confined d tr ws :=
  fun x hx => h.stores_iff.1 ⟨x.2, hx⟩

/-- A trace with nothing but the trace `tr` in it that replies, and no assignment before. -/
def Wraps (tr tr' : List (Event shimSig)) : Prop :=
  ∃ pre post, tr' = pre ++ (tr ++ post) ∧ repliesOf pre = [] ∧ repliesOf post = [] ∧
    ∀ st, assigned st pre = st

theorem Wraps.refl (tr : List (Event shimSig)) : Wraps tr tr :=
  ⟨[], [], (List.append_nil tr).symm, rfl, rfl, fun _ => rfl⟩

theorem Wraps.cons {c : Cmd} (r : c.Resp) (hc : Mute c) (hassign : ∀ st, assign st c = st)
    (h : Wraps tr tr') : Wraps tr (⟨c, r⟩ :: tr') := by
  obtain ⟨pre, post, rfl, hpre, hpost, hst⟩ := h
  refine ⟨⟨c, r⟩ :: pre, post, rfl, ?_, hpost, fun st => ?_⟩
  · rw [repliesOf_mute hc, hpre]
  · rw [assigned, List.foldl_cons, hassign]
    exact hst st

theorem Wraps.append {post : List (Event shimSig)} (hquiet : repliesOf post = [])
    (h : Wraps tr tr') : Wraps tr (tr' ++ post) := by
  obtain ⟨pre, post', rfl, hpre, hpost, hst⟩ := h
  refine ⟨pre, post' ++ post, by simp, hpre, ?_, hst⟩
  rw [repliesOf_append, hpost, hquiet, List.nil_append]

theorem Wraps.replies (h : Wraps tr tr') : repliesOf tr' = repliesOf tr := by
  obtain ⟨pre, post, rfl, hpre, hpost, -⟩ := h
  rw [repliesOf_append, repliesOf_append, hpre, hpost, List.nil_append, List.append_nil]

theorem AllReplied.wraps (h : AllReplied d m st tr ws) (hwraps : Wraps tr tr') :
    AllReplied d m st tr' ws := by
  obtain ⟨pre, post, rfl, hpre, hpost, hst⟩ := hwraps
  have hnone : AllReplied d m (assigned st tr) post [] := .nil hpost
  have hall := h.append hnone
  rw [List.append_nil] at hall
  refine .after_quiet hpre ?_
  rwa [hst]

theorem Confined.wraps (h : Confined d tr ws) (hwraps : Wraps tr tr') : Confined d tr' ws := by
  unfold Confined
  rw [hwraps.replies]
  exact h

end Replies

/-- One transfer and then the rest of the list. -/
theorem ListServed.cons {s s₁ s' : State Mem} {tr tr' : List (Event shimSig)}
    (hfair : FairList d hist (x :: xs)) (h : ListServed d hist [x] s tr s₁)
    (h' : ListServed d (historyAfter hist [x]) xs s₁ tr' s') :
    ListServed d hist (x :: xs) s (tr ++ tr') s' := by
  obtain ⟨-, -, hapart, -, hhome⟩ := hfair
  rw [owed_cons] at hapart hhome
  refine ⟨?_, h'.pending, ?_, fun c hc hw => ?_⟩
  · rw [h'.statics, h.statics, assigned_append]
  · rw [owed_cons]
    refine (h.replies.mono fun w hw c hc => ?_).append (h.statics ▸ h'.replies)
    refine h'.apart c (fun hpad => ?_) fun w' hw' hc' => ?_
    · refine hhome w (List.mem_append_left _ hw) c hc ?_
      unfold InPadBuffers at hpad
      unfold InHome
      omega
    · exact (List.pairwise_append.1 hapart).2.2 w hw w' hw' c hc hc'
  · rw [owed_cons] at hw
    rw [h'.apart c hc fun w hmem => hw w (List.mem_append_right _ hmem),
      h.apart c hc fun w hmem => hw w (List.mem_append_left _ hmem)]

theorem not_inPadBuffers {c : ℕ} (hc : ¬ InHome c) : ¬ InPadBuffers c := by
  unfold InPadBuffers
  unfold InHome at hc
  omega

variable {W : World Mem} {m : Mem} {addr : ℕ} {first : Bool} {s s' : State Mem}
  {tr : List (Event shimSig)} {o : Outcome shimSig Unit}

/-- The loads of the first two words of a descriptor. -/
def descriptorLoads (addr control word : ℕ) : List (Event shimSig) :=
  [⟨.load32 .head (p2Addr addr), control⟩, ⟨.load32 .list (p2Addr (addr + 0x04)), word⟩]

theorem assigned_descriptorLoads (addr control word : ℕ) (st : Static → ℕ)
    (tr : List (Event shimSig)) :
    assigned st (descriptorLoads addr control word ++ tr) = assigned st tr := rfl

/-- One transfer is served as the responder owes it, or the shim reboots. -/
theorem exec_slot (hlo : 0x0c000000 ≤ addr) (hhi : addr < 0x0f000000)
    (hfair : FairList d hist (slotAt m addr :: xs))
    (hpending : s.statics .pendingJvs = (onTheWay hist).getD 0xff)
    (hsame : ∀ c, (slotAt m addr).Cell c → s.mem c = m c)
    (h : Exec (flatMachine W) (Prog.whenever (slotAt m addr).Start
      (serveFrame d first addr (slotAt m addr).rcv)) s tr o s') (control word : ℕ) :
    (o = .ret () ∧
        ListServed d hist [slotAt m addr] s (descriptorLoads addr control word ++ tr) s') ∨
      (o = .halt .reboot ∧ repliesOf tr = []) := by
  have hstatics : s'.statics = assigned s.statics (descriptorLoads addr control word ++ tr) := by
    rw [assigned_descriptorLoads]
    exact exec_assigned h
  by_cases hstart : (slotAt m addr).Start
  · obtain ⟨-, -, hheader, hpayload⟩ := slotAt_congr hsame
    have hpayload := hpayload hstart
    rw [Prog.whenever_pos hstart] at h
    obtain ⟨a, ha⟩ := exists_respondTo d (onTheWay hist)
      (hfair.handled _ List.mem_cons_self hstart)
    have hanswer : (descriptorAt s.mem addr).answer d (s.statics .pendingJvs) = some a := by
      rw [hpending, Descriptor.answer_eq_respondTo, ← ha]
      exact respondTo_congr hheader hpayload d _
    have howed : owed (respond d) hist [slotAt m addr] = [(slotAt m addr, some a)] := by
      rw [owed, if_pos hstart, respond, ha]
      rfl
    have hhome : ∀ c, ReplyCell d (slotAt m addr, some a) c → ¬ InPadBuffers c := by
      refine fun c hc => not_inPadBuffers (hfair.home _ ?_ c hc)
      rw [owed_cons, howed]
      exact List.mem_cons_self
    have hrcv : (slotAt m addr).rcv < 2 ^ 32 := Nat.lt_of_le_of_lt Nat.and_le_right (by decide)
    have hw := hfair.window _ List.mem_cons_self hstart
    rcases exec_serveFrame_landed d hlo hhi hrcv hw hanswer h with ⟨ho, hlanded⟩ | hreboot
    · obtain ⟨bs, hbs⟩ : ∃ bs, a.bytes d s'.statics = bs := ⟨_, rfl⟩
      rw [hbs] at hlanded
      have hcell : ∀ i, i < bs.length →
          ReplyCell d (slotAt m addr, some a) (ramCell ((slotAt m addr).rcv + i)) := by
        intro i hi
        rw [← hbs, a.bytes_length] at hi
        exact ⟨a, rfl, i, hi, rfl⟩
      refine .inl ⟨ho, hstatics, ?_, ?_, fun c hc hw => ?_⟩
      · rw [hlanded.pending, hpending, historyAfter, if_pos hstart, historyAfter,
          ← pendingAfter_onTheWay]
        exact Descriptor.pendingAfter_congr hheader hpayload _
      · rw [howed]
        have hreplied : Replied d s'.mem s.statics (descriptorLoads addr control word ++ tr)
            (slotAt m addr, some a) := by
          refine ⟨⟨control, rfl⟩, a, bs, rfl, ?_, hlanded.laid, fun i hi =>
            hlanded.bytes i hi (hhome _ (hcell i hi))⟩
          rw [← hbs, hstatics]
        have hall : AllReplied d s'.mem s.statics
            ([] ++ ((descriptorLoads addr control word ++ tr) ++ []))
            [(slotAt m addr, some a)] := .cons rfl hreplied (.nil rfl)
        rwa [List.nil_append, List.append_nil] at hall
      · rw [howed] at hw
        refine hlanded.apart c hc fun i hi hic => hw _ List.mem_cons_self ?_
        exact hic ▸ hcell i hi
    · exact .inr hreboot
  · rw [Prog.whenever_neg hstart] at h
    cases h
    have howed : owed (respond d) hist [slotAt m addr] = [] := by
      rw [owed, if_neg hstart]
      rfl
    refine .inl ⟨rfl, hstatics, ?_, ?_, fun c _ _ => rfl⟩
    · rw [historyAfter, if_neg hstart]
      exact hpending
    · rw [howed]
      exact .nil rfl

/-- One round of the walk: the descriptor is read as it was laid out. -/
theorem exec_round {left : ℕ} (hlo : 0x0c000000 ≤ addr) (hhi : addr < 0x0f000000)
    (hsame : ∀ c, (slotAt m addr).Cell c → s.mem c = m c)
    (h : Exec (flatMachine W) (walk d (left + 1) first addr) s tr o s') :
    ∃ control word tr', tr = descriptorLoads addr control word ++ tr' ∧
      Exec (flatMachine W) (Prog.whenever (slotAt m addr).Start
        (serveFrame d first addr (slotAt m addr).rcv) >>= fun _ =>
          if (slotAt m addr).Last then pure ()
          else walk d left (first && !decide (slotAt m addr).Start)
            (u32 (addr + (slotAt m addr).stride))) s tr' o s' := by
  obtain ⟨hcontrol, hrcv, -, -⟩ := slotAt_congr hsame
  have hhead : isRam addr := isRam_of_bounds hlo (by omega)
  have hrecv : isRam (addr + 0x04) := isRam_of_bounds (by omega) (by omega)
  obtain ⟨h1, s₁, tr₁, rfl, hload, h⟩ := h.of_op
  obtain ⟨word, s₂, tr₂, rfl, hload', h⟩ := h.of_op
  have hrest : Exec (flatMachine W) (Prog.whenever ((h1 >>> 8) &&& 7 = 0)
      (serveFrame d first addr (word &&& 0x1fffffe0)) >>= fun _ =>
        if h1 >>> 31 ≠ 0 then pure ()
        else walk d left (first && !decide ((h1 >>> 8) &&& 7 = 0))
          (u32 (addr + (2 + ((h1 &&& 0xff) + 1)) * 4))) s₂ tr₂ o s' := h
  obtain ⟨hh1, m₁, hm₁, rfl⟩ := (step_load32 ((isRam_p2Addr _).2 hhead)).1 hload
  cases hm₁
  obtain ⟨hword, m₂, hm₂, rfl⟩ := (step_load32 ((isRam_p2Addr _).2 hrecv)).1 hload'
  cases hm₂
  have hh1 : h1 = (slotAt m addr).control := hh1.trans hcontrol
  have hword : word &&& 0x1fffffe0 = (slotAt m addr).rcv :=
    (congrArg (· &&& 0x1fffffe0) hword).trans hrcv
  refine ⟨h1, word, tr₂, rfl, ?_⟩
  rw [hword, hh1] at hrest
  exact hrest

/-- The walk serves the list that lies at its cursor. -/
theorem exec_walk {left : ℕ} (hlist : ListAt m addr slots) (hlen : slots.length ≤ left)
    (hlo : 0x0c000000 ≤ addr) (hhi : addr + left * 1032 < 0x0e010000)
    (hfair : FairList d hist slots) (hoff : OffPadBuffers slots)
    (hpending : s.statics .pendingJvs = (onTheWay hist).getD 0xff)
    (hsame : ∀ x ∈ slots, ∀ c, x.Cell c → s.mem c = m c)
    (h : Exec (flatMachine W) (walk d left first addr) s tr o s') :
    (o = .ret () ∧ ListServed d hist slots s tr s') ∨
      (o = .halt .reboot ∧ Confined d tr (owed (respond d) hist slots)) := by
  induction hlist generalizing left first hist s tr with
  | @last addr hlast =>
      obtain ⟨left, rfl⟩ : ∃ n, left = n + 1 := Nat.exists_eq_succ_of_ne_zero (by
        simp only [List.length_cons, List.length_nil] at hlen
        omega)
      have hcells := hsame _ List.mem_cons_self
      obtain ⟨control, word, tr', rfl, hround⟩ := exec_round hlo (by omega) hcells h
      rw [if_pos hlast] at hround
      rcases hround.of_bind with ⟨e, rfl, hhalt⟩ | ⟨tr₁, tr₂, u, s₁, rfl, hret, h⟩
      · rcases exec_slot hlo (by omega) hfair hpending hcells hhalt control word with
          ⟨ho, -⟩ | ⟨ho, hquiet⟩
        · cases ho
        · cases ho
          exact .inr ⟨rfl, .of_quiet hquiet _⟩
      · cases h
        rcases exec_slot hlo (by omega) hfair hpending hcells hret control word with
          ⟨-, hserved⟩ | ⟨ho, -⟩
        · rw [List.append_nil]
          exact .inl ⟨rfl, hserved⟩
        · cases ho
  | @next addr xs hlast hxs ih =>
      obtain ⟨left, rfl⟩ : ∃ n, left = n + 1 := Nat.exists_eq_succ_of_ne_zero (by
        simp only [List.length_cons] at hlen
        omega)
      have hcells := hsame _ List.mem_cons_self
      obtain ⟨control, word, tr', rfl, hround⟩ := exec_round hlo (by omega) hcells h
      rw [if_neg hlast] at hround
      rcases hround.of_bind with ⟨e, rfl, hhalt⟩ | ⟨tr₁, tr₂, u, s₁, rfl, hret, h⟩
      · rcases exec_slot hlo (by omega) hfair hpending hcells hhalt control word with
          ⟨ho, -⟩ | ⟨ho, hquiet⟩
        · cases ho
        · cases ho
          exact .inr ⟨rfl, .of_quiet hquiet _⟩
      · rcases exec_slot hlo (by omega) hfair hpending hcells hret control word with
          ⟨-, hserved⟩ | ⟨ho, -⟩
        · have hstride : (slotAt m addr).stride ≤ 1032 := stride_le _
          rw [u32_of_lt (by omega)] at h
          have hrest : ∀ y ∈ xs, ∀ c, y.Cell c → s₁.mem c = m c := by
            intro y hy c hc
            have hy' := List.mem_cons_of_mem (slotAt m addr) hy
            rw [hserved.apart c (hoff y hy' c hc) fun w hw hwc => ?_, hsame y hy' c hc]
            refine hfair.list w ?_ c hwc y hy' hc
            rw [owed_cons]
            exact List.mem_append_left _ hw
          rw [← List.append_assoc]
          rcases ih (Nat.le_of_succ_le_succ hlen) (by omega) (by omega) hfair.tail
            (fun y hy => hoff y (List.mem_cons_of_mem _ hy)) hserved.pending hrest h with
            ⟨ho, hserved'⟩ | ⟨ho, hconfined⟩
          · exact .inl ⟨ho, hserved.cons hfair hserved'⟩
          · rw [owed_cons]
            exact .inr ⟨ho, hserved.replies.confined.append hconfined⟩
        · cases ho

end Walk

/-! ## Calls and runs -/

section Run

variable {d : Embedded} {W : World Mem} {hist : List Descriptor} {slots : List Slot}
  {s s' : State Mem} {m : Mem} {rc : ℤ} {tr : List (Event shimSig)}

/-- What the engine asks for: nothing, or a list that it laid out in RAM. -/
inductive Requests (d : Embedded) (hist : List Descriptor) (m : Mem) : List Slot → Prop
  | nothing (h : ¬ Triggered m) : Requests d hist m []
  | list {slots : List Slot} (ht : Triggered m) (hw : inWindow (listBase m))
      (hlist : ListAt m (listBase m) slots) (hlen : slots.length ≤ 32)
      (hfair : FairList d hist slots) (hoff : OffPadBuffers slots) : Requests d hist m slots

/-- Any number of calls that returned, and the frames they were handed, the latest
first. In between the game does what it likes with everything but the latch. -/
inductive TransportRun (d : Embedded) (W : World Mem) : List Descriptor → State Mem → Prop
  | init {s : State Mem} (h : s.statics .pendingJvs = 0xff) : TransportRun d W [] s
  | game {hist : List Descriptor} {s s' : State Mem} (h : TransportRun d W hist s)
      (hs : s'.statics .pendingJvs = s.statics .pendingJvs) : TransportRun d W hist s'
  | call {hist : List Descriptor} {s s' : State Mem} {rc r : ℤ} {m : Mem}
      {tr : List (Event shimSig)} {slots : List Slot} (h : TransportRun d W hist s)
      (hcall : Call d W s rc m tr (.ret r) s') (hreq : Requests d hist m slots) :
      TransportRun d W (historyAfter hist slots) s'

/-- A call that found the statics at `st` has answered its list. -/
structure CallServed (d : Embedded) (hist : List Descriptor) (slots : List Slot)
    (st : Static → ℕ) (m : Mem) (tr : List (Event shimSig)) (s' : State Mem) : Prop where
  pending : s'.statics .pendingJvs = (onTheWay (historyAfter hist slots)).getD 0xff
  replies : AllReplied d s'.mem st tr (owed (respond d) hist slots)
  done : Triggered m → ramWord s'.mem (mmir 0x18) = 0
  apart : ∀ c, ¬ InHome c → (∀ w ∈ owed (respond d) hist slots, ¬ ReplyCell d w c) →
    s'.mem c = m c

/-- Without a trigger the call leaves everything as the engine did. -/
theorem exec_serviceMirror_idle {o : Outcome shimSig ℤ} (ht : ¬ Triggered s.mem)
    (h : Exec (flatMachine W) (serviceMirror d rc) s tr o s') :
    o = .ret rc ∧ s' = s ∧ repliesOf tr = [] := by
  unfold serviceMirror at h
  simp only [Prog.op_bind, Prog.ret_bind] at h
  obtain ⟨mdst, s₁, tr₁, rfl, hload, h⟩ := h.of_op
  obtain ⟨hmdst, m, hm, rfl⟩ := (step_load32 (by decide)).1 hload
  cases hm
  have hclear : ¬ (mdst &&& 1 ≠ 0) := by
    rw [show mdst = ramWord s.mem (mmir 0x18) from hmdst]
    exact ht
  rw [Prog.whenever_neg hclear] at h
  cases h
  exact ⟨rfl, rfl, rfl⟩

/-- A transfer whose list is in the window walks it. -/
theorem exec_serviceTransfer_walk {o : Outcome shimSig Unit} (hw : inWindow (listBase s.mem))
    (h : Exec (flatMachine W) (serviceTransfer d) s tr o s') :
    ∃ tr₁ o₁ s₁, Exec (flatMachine W) (walk d 32 true (listBase s.mem)) s tr₁ o₁ s₁ ∧
      Wraps tr₁ tr ∧ ((∃ e, o₁ = .halt e ∧ o = .halt e) ∨
        o₁ = .ret () ∧ o = .ret () ∧
          s' = { s₁ with mem := setBytes ramCell s₁.mem (mmir 0x18) (wordBytes 0) }) := by
  unfold serviceTransfer at h
  simp only [Prog.op_bind, Prog.ret_bind] at h
  obtain ⟨star, s₁, tr₁, rfl, hload, hrest⟩ := h.of_op
  obtain ⟨hstar, m, hm, rfl⟩ := (step_load32 (by decide)).1 hload
  cases hm
  have hstar : star &&& 0x1fffffe0 = listBase s.mem := congrArg (· &&& 0x1fffffe0) hstar
  rw [hstar, Prog.whenever_pos hw] at hrest
  rcases hrest.of_bind with ⟨e, rfl, hhalt⟩ | ⟨tr₂, tr₃, u, s₂, rfl, hret, htail⟩
  · exact ⟨_, _, _, hhalt, .cons _ trivial (fun _ => rfl) (.refl _), .inl ⟨e, rfl, rfl⟩⟩
  · obtain ⟨ho, hs, v, rfl⟩ := exec_clearStart htail
    exact ⟨_, _, _, hret, .cons _ trivial (fun _ => rfl) (.append rfl (.refl _)),
      .inr ⟨rfl, ho, hs⟩⟩

/-- A triggered call walks the list and clears the start bit. -/
theorem exec_serviceMirror_list {o : Outcome shimSig ℤ} (ht : Triggered s.mem)
    (hw : inWindow (listBase s.mem))
    (h : Exec (flatMachine W) (serviceMirror d rc) s tr o s') :
    ∃ tr₁ o₁ s₁, Exec (flatMachine W) (walk d 32 true (listBase s.mem)) s tr₁ o₁ s₁ ∧
      Wraps tr₁ tr ∧ ((∃ e, o₁ = .halt e ∧ o = .halt e) ∨
        o₁ = .ret () ∧ o = .ret rc ∧
          s' = { s₁ with mem := setBytes ramCell s₁.mem (mmir 0x18) (wordBytes 0) }) := by
  unfold serviceMirror at h
  simp only [Prog.op_bind, Prog.ret_bind] at h
  obtain ⟨mdst, s₁, tr₁, rfl, hload, h⟩ := h.of_op
  obtain ⟨hmdst, m, hm, rfl⟩ := (step_load32 (by decide)).1 hload
  cases hm
  have hset : mdst &&& 1 ≠ 0 := by
    rw [show mdst = ramWord s.mem (mmir 0x18) from hmdst]
    exact ht
  rw [Prog.whenever_pos hset] at h
  rcases h.of_bind with ⟨e, rfl, hhalt⟩ | ⟨tr₂, tr₃, u, s₂, rfl, hret, h⟩
  · obtain ⟨tr₂, o₂, s₂, hwalk, hwraps, hend⟩ := exec_serviceTransfer_walk hw hhalt
    refine ⟨tr₂, o₂, s₂, hwalk, hwraps.cons _ trivial fun _ => rfl, .inl ?_⟩
    rcases hend with ⟨e', ho, he⟩ | ⟨-, he, -⟩
    · cases he
      exact ⟨e, ho, rfl⟩
    · cases he
  · cases h
    rw [List.append_nil]
    obtain ⟨tr₃, o₃, s₃, hwalk, hwraps, hend⟩ := exec_serviceTransfer_walk hw hret
    refine ⟨tr₃, o₃, s₃, hwalk, hwraps.cons _ trivial fun _ => rfl, .inr ?_⟩
    rcases hend with ⟨e', -, he⟩ | ⟨ho, -, hs⟩
    · cases he
    · exact ⟨ho, rfl, hs⟩

/-- The word of the mirror that is cleared lies in the shim home. -/
theorem mirror_inHome {i : ℕ} (hi : i < 4) : InHome (ramCell (mmir 0x18 + i)) := by
  have hmirror : mmir 0x18 = 0xacfd3018 := by decide
  rw [hmirror]
  unfold InHome ramCell
  omega

/-- The service after the engine, with the latch in step with the history. -/
theorem exec_service {o : Outcome shimSig ℤ}
    (hpending : s.statics .pendingJvs = (onTheWay hist).getD 0xff)
    (h : Exec (flatMachine W) (serviceMirror d rc) s tr o s')
    (hreq : Requests d hist s.mem slots) :
    (o = .ret rc ∧ CallServed d hist slots s.statics s.mem tr s') ∨
      (o = .halt .reboot ∧ (∃ ev ∈ tr, ResetRead ev) ∧
        Confined d tr (owed (respond d) hist slots)) := by
  cases hreq with
  | nothing ht =>
      obtain ⟨ho, rfl, hnil⟩ := exec_serviceMirror_idle ht h
      exact .inl ⟨ho, hpending, .nil hnil, fun h => absurd h ht, fun _ _ _ => rfl⟩
  | list ht hw hlist hlen hfair hoff =>
      obtain ⟨tr₁, o₁, s₁, hwalk, hwraps, hend⟩ := exec_serviceMirror_list ht hw h
      obtain ⟨hlo, hhi⟩ := (inWindow_iff (listBase_lt _)).1 hw
      have hserved := exec_walk hlist hlen hlo (by omega) hfair hoff hpending
        (fun _ _ _ _ => rfl) hwalk
      rcases hend with ⟨e, rfl, rfl⟩ | ⟨rfl, rfl, rfl⟩
      · right
        rcases hserved with ⟨ho, -⟩ | ⟨ho, hconfined⟩
        · cases ho
        · cases ho
          rcases (exec_serviceMirror h).ends ht with ⟨ho, -⟩ | ⟨_, _, ho, -⟩ | ⟨ho, hreset⟩
          · cases ho
          · cases ho
          · exact ⟨ho, hreset, hconfined.wraps hwraps⟩
      · obtain ⟨-, -, hp, hreplies, hapart⟩ := hserved.resolve_right fun ho => by cases ho.1
        have hstart : ∀ c, ¬ InHome c → setBytes ramCell s₁.mem (mmir 0x18) (wordBytes 0) c =
            s₁.mem c := fun c hc =>
          setBytes_off _ _ _ fun i hi hic => hc (hic ▸ mirror_inHome hi)
        refine .inl ⟨rfl, hp, ?_, fun _ => ramWord_setBytes _ (by decide), fun c hc hw => ?_⟩
        · exact (hreplies.wraps hwraps).mono fun w hw c hc => hstart c (hfair.home w hw c hc)
        · exact (hstart c hc).trans (hapart c (not_inPadBuffers hc) hw)

/-- A call that starts with the latch in step with the history. -/
theorem exec_call {o : Outcome shimSig ℤ}
    (hpending : s.statics .pendingJvs = (onTheWay hist).getD 0xff)
    (hcall : Call d W s rc m tr o s') (hreq : Requests d hist m slots) :
    (o = .ret rc ∧ CallServed d hist slots s.statics m tr s') ∨
      (o = .halt .reboot ∧ (∃ ev ∈ tr, ResetRead ev) ∧
        Confined d tr (owed (respond d) hist slots)) := by
  obtain ⟨regs, trS, -, rfl, h⟩ := hcall
  have hwraps : Wraps trS (⟨.store32 .own freePlay 1, ()⟩ :: ⟨.engine, rc⟩ :: trS) :=
    .cons _ (by simp [Mute]) (fun _ => rfl) (.cons _ trivial (fun _ => rfl) (.refl trS))
  rcases exec_service (s := { s with mem := m, regs := regs }) hpending h hreq with
    ⟨ho, hp, hreplies, hdone, hapart⟩ | ⟨ho, ⟨ev, hev, hreset⟩, hconfined⟩
  · exact .inl ⟨ho, hp, hreplies.wraps hwraps, hdone, hapart⟩
  · exact .inr ⟨ho, ⟨ev, List.mem_cons_of_mem _ (List.mem_cons_of_mem _ hev), hreset⟩,
      hconfined.wraps hwraps⟩

/-- The latch of the shim holds the JVS command that the history has on the way. -/
theorem TransportRun.pending (h : TransportRun d W hist s) :
    s.statics .pendingJvs = (onTheWay hist).getD 0xff := by
  induction h with
  | init h => exact h
  | game _ hs ih => exact hs.trans ih
  | call _ hcall hreq ih =>
      rcases exec_call ih hcall hreq with ⟨-, hserved⟩ | ⟨ho, -⟩
      · exact hserved.pending
      · cases ho

/-- After any run a call that is handed a list answers each of its MP_Start frames
once and in order as the responder owes it to the frame and to the history of the
run, or reads the reset combination on a pad and reboots. -/
theorem transport_refines (d : Embedded) (W : World Mem) {hist : List Descriptor}
    {s : State Mem} (hrun : TransportRun d W hist s) :
    (∀ {rc m tr o s' slots}, Call d W s rc m tr o s' → Requests d hist m slots →
      (o = .ret rc ∧ CallServed d hist slots s.statics m tr s') ∨
        (o = .halt .reboot ∧ ∃ ev ∈ tr, ResetRead ev)) ∧
    ∀ {tr o s'}, Exec (flatMachine W) (shimMapleSteady d) s tr o s' →
      ∃ rc m, Call d W s rc m tr o s' :=
  ⟨fun hcall hreq => (exec_call hrun.pending hcall hreq).imp_right fun h => ⟨h.1, h.2.1⟩,
    exec_shimMapleSteady_iff.1⟩

/-- In every run the replies of a call miss the shim home, whether it returns or reboots:
each answer of its list does. -/
theorem call_spares_home (hrun : TransportRun d W hist s) {o : Outcome shimSig ℤ}
    (hcall : Call d W s rc m tr o s') (hreq : Requests d hist m slots) : SparesHome tr := by
  have hconfined : Confined d tr (owed (respond d) hist slots) := by
    rcases exec_call hrun.pending hcall hreq with ⟨-, hserved⟩ | ⟨-, -, h⟩
    · exact hserved.replies.confined
    · exact h
  intro x hx
  obtain ⟨w, hw, hlo, hhi⟩ := hconfined x hx
  obtain ⟨i, hi⟩ := Nat.exists_eq_add_of_le hlo
  cases hreq with
  | nothing _ => cases hw
  | list _ _ _ _ hfair _ =>
      rw [hi, ramCell_p2Addr_add]
      exact hfair.home w hw _ (replyCell_iff.2 ⟨i, by omega, rfl⟩)

end Run

/-! ## Sample lists -/

/-- The call against devices. -/
theorem Devices.call (D : Devices) (d : Embedded) (s : State Mem) :
    Call d D.world s (D.engine (setBytes ramCell s.mem freePlay (wordBytes 1))).1
      (D.engine (setBytes ramCell s.mem freePlay (wordBytes 1))).2
      ((shimMapleSteady d).run D.answer s).1 ((shimMapleSteady d).run D.answer s).2.1
      ((shimMapleSteady d).run D.answer s).2.2 := by
  obtain ⟨rc, m, regs, trS, hengine, h⟩ :=
    exec_shimMapleSteady_iff.1 (D.exec D.in_world (shimMapleSteady d) s)
  have hpair : (rc, m) = D.engine (setBytes ramCell s.mem freePlay (wordBytes 1)) := hengine
  rw [← hpair]
  exact ⟨regs, trS, hengine, h⟩

/-- A build with one captured reply. -/
def oneReply : Embedded :=
  { Embedded.blank with mieJvsf1 := [0x87, 0x00, 0x20, 0x00], fits := by decide }

/-- The engine has laid out the words and triggered the list at the address. -/
def handed (base : ℕ) (ws : List (ℕ × ℕ)) : State Mem :=
  pendingState { padsInit with
    mem := ofWords ([(mmir 0x18, 1), (mmir 0x04, base)] ++ ws) } 0xff

/-- The memory that the engine of the samples leaves. -/
def engineLeft (s : State Mem) : Mem := setBytes ramCell s.mem freePlay (wordBytes 1)

/-- The JVS command 0xf1 is transmitted. -/
def transmitList : State Mem :=
  handed 0x0c100000 [(0x0c100000, 0x80000003), (0x0c100004, 0x0c200000), (0x0c100008, 0x2086),
    (0x0c10000c, 0x17), (0x0c100014, 0xf1)]

/-- A receive. -/
def receiveList : State Mem :=
  handed 0x0c100000 [(0x0c100000, 0x80000001), (0x0c100004, 0x0c200000), (0x0c100008, 0x2086),
    (0x0c10000c, 0x15)]

/-- A list below its replies. -/
theorem requests_of_layout {d : Embedded} {hist : List Descriptor} {m : Mem} {slots : List Slot}
    (ht : ramWord m (mmir 0x18) &&& 1 ≠ 0) (hw : inWindow (listBase m))
    (hlist : ListAt m (listBase m) slots) (hlen : slots.length ≤ 32)
    (hwindow : ∀ x ∈ slots, x.Start → inWindow x.rcv)
    (hhandled : ∀ x ∈ slots, x.Start → x.frame.Mie → x.frame.sub ∈ mieSubs)
    (hslots : ∀ x ∈ slots, 0x0c000000 ≤ x.addr ∧ x.addr + 1032 ≤ 0x0c200000)
    (hreplies : ∀ w ∈ owed (respond d) hist slots,
      0x0c200000 ≤ w.1.rcv ∧ w.1.rcv + replyLength d w ≤ 0x0c300000)
    (horder : (owed (respond d) hist slots).Pairwise fun w w' =>
      w.1.rcv + replyLength d w ≤ w'.1.rcv) : Requests d hist m slots := by
  refine .list ht hw hlist hlen ?_ (.of_layout fun x hx => ?_)
  · exact .of_layout (by decide) (by decide) hwindow hhandled (fun x hx => .inl (hslots x hx))
      hreplies horder
  · have := hslots x hx
    omega

/-- A receive after a transmit in an earlier list. -/
theorem transport_refines_sample :
    ∃ hist s rc m tr a s' slots, TransportRun oneReply startPads.world hist s ∧
      onTheWay hist = some 0xf1 ∧ Call oneReply startPads.world s rc m tr (.ret a) s' ∧
        (owed (respond oneReply) hist slots).map Prod.snd =
          [some (.blob [0x87, 0x00, 0x20, 0x00])] ∧
        CallServed oneReply hist slots s.statics m tr s' := by
  have hhalted : ((shimMapleSteady oneReply).run startPads.answer transmitList).2.1.halted =
      none := by decide +kernel
  obtain ⟨a, hret⟩ := Outcome.of_not_halted hhalted
  have hcall := startPads.call oneReply transmitList
  rw [hret] at hcall
  have hreq : Requests oneReply [] (engineLeft transmitList)
      [slotAt (engineLeft transmitList) (listBase (engineLeft transmitList))] :=
    requests_of_layout (by decide +kernel) (by decide +kernel) (.last (by decide +kernel))
      (by simp) (by decide +kernel) (by decide +kernel) (by decide +kernel) (by decide +kernel)
      (by decide +kernel)
  have hrun := TransportRun.call (.init rfl) hcall hreq
  -- the game lays out the second list
  let s : State Mem :=
    { ((shimMapleSteady oneReply).run startPads.answer transmitList).2.2 with
      mem := receiveList.mem }
  have hrun : TransportRun oneReply startPads.world _ s := hrun.game rfl
  have hhalted' : ((shimMapleSteady oneReply).run startPads.answer s).2.1.halted = none := by
    decide +kernel
  obtain ⟨a', hret'⟩ := Outcome.of_not_halted hhalted'
  have hcall' := startPads.call oneReply s
  rw [hret'] at hcall'
  have hreq' : Requests oneReply
      (historyAfter [] [slotAt (engineLeft transmitList) (listBase (engineLeft transmitList))])
      (engineLeft receiveList)
      [slotAt (engineLeft receiveList) (listBase (engineLeft receiveList))] :=
    requests_of_layout (by decide +kernel) (by decide +kernel) (.last (by decide +kernel))
      (by simp) (by decide +kernel) (by decide +kernel) (by decide +kernel) (by decide +kernel)
      (by decide +kernel)
  rcases (transport_refines oneReply startPads.world hrun).1 hcall' hreq' with
    ⟨-, hserved⟩ | ⟨ho, -⟩
  · exact ⟨_, _, _, _, _, _, _, _, hrun, by decide +kernel, hcall', by decide +kernel, hserved⟩
  · cases ho

/-- The answer to a frame by the JVS command transmitted last, scan or no scan. -/
def respondLast (d : Embedded) (hist : List Descriptor) (x : Descriptor) : Option Answer :=
  respondTo d (lastTransmit hist) x

/-- A transmit, a scan and a receive. -/
def scanList : State Mem :=
  handed 0x0c100000 [(0x0c100000, 0x00000003), (0x0c100004, 0x0c200000), (0x0c100008, 0x2086),
    (0x0c10000c, 0x17), (0x0c100014, 0xf1),
    (0x0c100018, 0x00000001), (0x0c10001c, 0x0c200100), (0x0c100020, 0x2086), (0x0c100024, 0x27),
    (0x0c100028, 0x80000001), (0x0c10002c, 0x0c200200), (0x0c100030, 0x2086), (0x0c100034, 0x15)]

/-- A scan makes the shim forget the JVS command. -/
theorem transport_forgets :
    ¬ ∀ (d : Embedded) (W : World Mem) (s : State Mem) rc m tr a s' slots,
      s.statics .pendingJvs = 0xff → Call d W s rc m tr (.ret a) s' → Requests d [] m slots →
        AllReplied d s'.mem s.statics tr (owed (respondLast d) [] slots) := by
  intro hclaim
  have hhalted : ((shimMapleSteady oneReply).run startPads.answer scanList).2.1.halted = none := by
    decide +kernel
  obtain ⟨a, hret⟩ := Outcome.of_not_halted hhalted
  have hcall := startPads.call oneReply scanList
  rw [hret] at hcall
  have hlist : ListAt (engineLeft scanList) (listBase (engineLeft scanList)) _ :=
    .next (by decide +kernel) (.next (by decide +kernel) (.last (by decide +kernel)))
  have hreq : Requests oneReply [] (engineLeft scanList) _ :=
    requests_of_layout (by decide +kernel) (by decide +kernel) hlist (by simp) (by decide +kernel)
      (by decide +kernel) (by decide +kernel) (by decide +kernel) (by decide +kernel)
  have hall := hclaim _ _ _ _ _ _ _ _ _ rfl hcall hreq
  have hstore : ((repliesOf ((shimMapleSteady oneReply).run startPads.answer scanList).1).any
      fun x => decide (x.1 = p2Addr 0x0c200200 + 40)) = true := by decide +kernel
  obtain ⟨⟨b, v⟩, hx, hb⟩ := List.any_eq_true.1 hstore
  obtain rfl : b = p2Addr 0x0c200200 + 40 := of_decide_eq_true hb
  refine absurd (hall.stores_iff.1 ⟨v, hx⟩) ?_
  decide +kernel

/-- Pads that answer with 32 bytes. -/
def longPads : Devices :=
  ⟨fun m => (0, m), fun a => if a = 0xffd8000c then 16 else 0,
    fun _ => [8, 0, 0, 0, 0, 0, 0, 0, 0xff, 0xff, 0, 0, 0, 0, 0, 0, 0, 0, 0, 0x80] ++
      List.replicate 12 0⟩

/-- A digital read and a device request, in the buffer for the replies of the pads. -/
def bufferList : State Mem :=
  handed 0x0cfc9040 [(0x0cfc9040, 0x00000001), (0x0cfc9044, 0x0c200000), (0x0cfc9048, 0x2086),
    (0x0cfc904c, 0x33),
    (0x0cfc9050, 0x80000000), (0x0cfc9054, 0x0c200100), (0x0cfc9058, 0x2001)]

/-- A list in the pad buffers is overwritten while it is served. -/
theorem transport_overwrites :
    ¬ ∀ (d : Embedded) (W : World Mem) (s : State Mem) rc m tr a s' slots,
      s.statics .pendingJvs = 0xff → Call d W s rc m tr (.ret a) s' → Triggered m →
        inWindow (listBase m) → ListAt m (listBase m) slots → slots.length ≤ 32 →
          FairList d [] slots → AllReplied d s'.mem s.statics tr (owed (respond d) [] slots) := by
  intro hclaim
  have hhalted : ((shimMapleSteady oneReply).run longPads.answer bufferList).2.1.halted = none := by
    decide +kernel
  obtain ⟨a, hret⟩ := Outcome.of_not_halted hhalted
  have hcall := longPads.call oneReply bufferList
  rw [hret] at hcall
  have htriggered : ramWord (engineLeft bufferList) (mmir 0x18) &&& 1 ≠ 0 := by decide +kernel
  have hlist : ListAt (engineLeft bufferList) (listBase (engineLeft bufferList)) _ :=
    .next (by decide +kernel) (.last (by decide +kernel))
  have hlo : 0x0c000000 ≤ 0x0c200000 := by decide
  have hhi : 0x0c300000 ≤ 0x0cfc0000 := by decide
  have hall := hclaim _ _ _ _ _ _ _ _ _ rfl hcall htriggered (by decide +kernel) hlist (by simp)
    (.of_layout hlo hhi (by decide +kernel) (by decide +kernel) (by decide +kernel)
      (by decide +kernel) (by decide +kernel))
  have hstore : ∃ v, (p2Addr 0x0c200100, v) ∈
      repliesOf ((shimMapleSteady oneReply).run longPads.answer bufferList).1 :=
    hall.stores_iff.2 (by decide +kernel)
  obtain ⟨v, hv⟩ := hstore
  have hnone : ((repliesOf ((shimMapleSteady oneReply).run longPads.answer bufferList).1).all
      fun x => decide (x.1 ≠ p2Addr 0x0c200100)) = true := by decide +kernel
  exact of_decide_eq_true (List.all_eq_true.1 hnone _ hv) rfl

/-- A digital read. -/
def digitalList : State Mem :=
  handed 0x0c100000 [(0x0c100000, 0x80000001), (0x0c100004, 0x0c200000), (0x0c100008, 0x2086),
    (0x0c10000c, 0x33)]

/-- With the reset combination held the list is never answered. -/
theorem transport_reboots :
    ¬ ∀ (d : Embedded) (W : World Mem) (s : State Mem) rc m tr o s' slots,
      s.statics .pendingJvs = 0xff → Call d W s rc m tr o s' → Requests d [] m slots →
        o = .ret rc := by
  intro hclaim
  have hhalted : ((shimMapleSteady oneReply).run resetPads.answer digitalList).2.1.halted =
      some .reboot := by decide +kernel
  have hcall := resetPads.call oneReply digitalList
  rw [Outcome.of_halted hhalted] at hcall
  have hreq : Requests oneReply [] (engineLeft digitalList) _ :=
    requests_of_layout (by decide +kernel) (by decide +kernel) (.last (by decide +kernel))
      (by simp) (by decide +kernel) (by decide +kernel) (by decide +kernel) (by decide +kernel)
      (by decide +kernel)
  cases hclaim _ _ _ _ _ _ _ _ _ rfl hcall hreq

/-- Scans count, the list has to be kept out of the pad buffers, and a call may reboot. -/
theorem transport_not_refines :
    (¬ ∀ (d : Embedded) (W : World Mem) (s : State Mem) rc m tr a s' slots,
      s.statics .pendingJvs = 0xff → Call d W s rc m tr (.ret a) s' → Requests d [] m slots →
        AllReplied d s'.mem s.statics tr (owed (respondLast d) [] slots)) ∧
    (¬ ∀ (d : Embedded) (W : World Mem) (s : State Mem) rc m tr a s' slots,
      s.statics .pendingJvs = 0xff → Call d W s rc m tr (.ret a) s' → Triggered m →
        inWindow (listBase m) → ListAt m (listBase m) slots → slots.length ≤ 32 →
          FairList d [] slots → AllReplied d s'.mem s.statics tr (owed (respond d) [] slots)) ∧
    ¬ ∀ (d : Embedded) (W : World Mem) (s : State Mem) rc m tr o s' slots,
      s.statics .pendingJvs = 0xff → Call d W s rc m tr o s' → Requests d [] m slots →
        o = .ret rc :=
  ⟨transport_forgets, transport_overwrites, transport_reboots⟩

end Cfp2Dreamcast
