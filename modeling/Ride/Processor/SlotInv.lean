import Ride.Processor.KernelInv

/-!
# How a slot changes hands

A callback that works on a slot changes the memory of that slot, what belongs to
it, and the list of the free slots.  `Sys.OnlySlot` says that nothing else has
changed, and `Inv.of_onlySlot` reduces the invariant behind such a step to the
slot and to the list.

There are three ways for a slot.

* `Inv.acquired`: a free slot is handed out, and its first submission is to
  come.
* `Inv.resumed`: the slot that the callback holds gets its next submission.
* `Inv.released`: the slot that the callback holds becomes free, and its task is
  settled.
-/

namespace Ride

open CodeLib

namespace Sys

variable {B : Blake3} {n : Nat} {i : Fin n} {s t : Sys B n}

/-- From `s` to `t`, nothing has changed but the slot `i`, what belongs to it,
the list of the free slots, and the history of the tasks. -/
structure OnlySlot (i : Fin n) (s t : Sys B n) : Prop where
  other : ∀ j, j ≠ i → t.reqs j = s.reqs j
  buffer : (t.reqs i).buffer = (s.reqs i).buffer
  id : (t.reqs i).id = (s.reqs i).id
  data2 : (t.reqs i).req.data2 = some i
  addr : ∀ j, (t.reqs i).req.addr.block = .buffer j → j = i
  fixed : ∀ r, r.container = none → t.req r = s.req r
  sq : t.sq = s.sq
  ops : t.ops = s.ops
  cq : t.cq = s.cq
  todo : ∀ j, j ≠ i → t.outstanding (.slot j) = s.outstanding (.slot j)
  buffers : t.buffers = s.buffers
  gens : ∀ j, j ≠ i → t.gens j = s.gens j
  tickets : ∀ j, j ≠ i → t.tickets j = s.tickets j
  strings : ∀ j, j ≠ i → ∀ id path, s.strings id = some (path, j) →
    t.strings id = some (path, j)
  fds : ∀ j, j ≠ i → ∀ fd file, s.fds fd = some (.file file (.slot j)) →
    t.fds fd = some (.file file (.slot j))
  opens : t.opens = s.opens
  dequeued : s.dequeued <+: t.dequeued
  refused : t.refused = s.refused

/-- A store to the slot `i`, where the memory besides the slab is the same. -/
theorem OnlySlot.of_update {slot : Slot B.State n}
    (hreqs : t.reqs = Function.update s.reqs i slot)
    (hbuffer : slot.buffer = (s.reqs i).buffer)
    (hid : slot.id = (s.reqs i).id) (hdata2 : slot.req.data2 = some i)
    (haddr : ∀ j, slot.req.addr.block = .buffer j → j = i)
    (hpoll : t.queuePollReq = s.queuePollReq) (hconn : t.connReq = s.connReq)
    (hrecv : t.recvReq = s.recvReq) (htimer : t.timerReq = s.timerReq)
    (hsq : t.sq = s.sq) (hops : t.ops = s.ops) (hcq : t.cq = s.cq)
    (htodo : ∀ j, j ≠ i → t.outstanding (.slot j) = s.outstanding (.slot j))
    (hbuffers : t.buffers = s.buffers) (hgens : ∀ j, j ≠ i → t.gens j = s.gens j)
    (htickets : ∀ j, j ≠ i → t.tickets j = s.tickets j)
    (hstrings : ∀ j, j ≠ i → ∀ id path, s.strings id = some (path, j) →
      t.strings id = some (path, j))
    (hfds : ∀ j, j ≠ i → ∀ fd file, s.fds fd = some (.file file (.slot j)) →
      t.fds fd = some (.file file (.slot j)))
    (hopens : t.opens = s.opens) (hdeq : s.dequeued <+: t.dequeued)
    (hrefused : t.refused = s.refused) : OnlySlot i s t := by
  have hself : t.reqs i = slot := by rw [hreqs, Function.update_self]
  refine ⟨?_, ?_, ?_, ?_, ?_, ?_, hsq, hops, hcq, htodo, hbuffers, hgens,
    htickets, hstrings, hfds, hopens, hdeq, hrefused⟩
  · intro j hj
    rw [hreqs, Function.update_of_ne hj]
  · rw [hself, hbuffer]
  · rw [hself, hid]
  · rw [hself, hdata2]
  · rw [hself]
    exact haddr
  · intro r hr
    cases r with
    | slot j => exact absurd hr (by simp [ReqPtr.container])
    | queuePoll => exact hpoll
    | conn => exact hconn
    | recv => exact hrecv
    | timer => exact htimer

theorem OnlySlot.inRings (h : OnlySlot i s t) : t.inRings = s.inRings := by
  rw [Sys.inRings, Sys.inRings, h.sq, h.ops, h.cq]

theorem OnlySlot.keeps (h : OnlySlot i s t) {j : Fin n} (hj : j ≠ i) :
    Keeps j s t where
  slot := h.other j hj
  gen := h.gens j hj
  ticket := h.tickets j hj
  strings := h.strings j hj
  fds := h.fds j hj
  opens := by
    intro o ho
    rw [h.opens]
    exact ho
  dequeued := h.dequeued
  refused := by
    intro r hr
    rw [h.refused]
    exact hr

theorem OnlySlot.reqOk (h : OnlySlot i s t) (hs : ∀ r, s.ReqOk r)
    (r : ReqPtr n) : t.ReqOk r := by
  cases hr : r.container with
  | none =>
    have hfixed := h.fixed r hr
    refine ⟨?_, ?_⟩
    · rw [hfixed]
      exact (hs r).data2
    · rw [hfixed]
      exact (hs r).addr
  | some j =>
    obtain rfl : r = .slot j := by
      cases r <;> simp_all [ReqPtr.container]
    by_cases hj : j = i
    · subst hj
      refine ⟨h.data2, ?_⟩
      intro k hk
      rw [h.addr k hk]
    · have hslot := hs (.slot j)
      refine ⟨?_, ?_⟩
      · show (t.reqs j).req.data2 = _
        rw [h.other j hj]
        exact hslot.data2
      · intro k hk
        apply hslot.addr k
        rw [Sys.req, h.other j hj] at hk
        exact hk

/-- A step that changes one slot has to look after that slot, the list, the
tasks and the output. -/
theorem Inv.of_onlySlot {held held' : Option (Fin n)} (h : Inv held s)
    (hheld : ∀ j, j ≠ i → held ≠ some j) (ho : OnlySlot i s t)
    (hlist : FreeList (fun j => (t.reqs j).next) t.reqsList
      (fun j => (t.reqs j).inFlight = false) t.nrFreeReqs)
    (hslot : held' ≠ some i → t.SlotInv i) (htasks : t.Tasks)
    (hfresh : ∀ id, t.nextString ≤ id → t.strings id = none)
    (hout : t.Output) : Inv held' t where
  sq := by
    rw [ho.sq]
    exact h.sq
  cq := by
    rw [ho.cq]
    exact h.cq
  list := hlist
  slab := by
    intro j
    have hj := h.slab j
    by_cases hji : j = i
    · subst hji
      exact ⟨ho.buffer.trans hj.buffer, ho.id.trans hj.id⟩
    · exact ⟨by rw [ho.other j hji]; exact hj.buffer,
        by rw [ho.other j hji]; exact hj.id⟩
  reqs := ho.reqOk h.reqs
  aims := h.aims_of_rings ho.inRings
  slots := by
    intro j hj
    by_cases hji : j = i
    · subst hji
      exact hslot hj
    · exact (h.slots j (hheld j hji)).keeps (ho.keeps hji)
        (by rw [ho.buffers]) (ho.todo j hji)
  tasks := htasks
  fresh := hfresh
  output := hout

/-! ## A slot with a submission to come -/

/-- A slot whose submission is to come has exactly that on its way. -/
theorem SlotInv.of_todo {stage : Stage} {rest : List (Cmd n)}
    (hfly : (t.reqs i).inFlight = true) (hfits : t.Fits i stage)
    (htodo : t.todo = .submit (.slot i) :: rest)
    (hrest : .submit (.slot i) ∉ rest)
    (hnone : t.inRings.filter (Pending.For (.slot i)) = 0) : t.SlotInv i := by
  refine ⟨?_, ?_⟩
  · intro hfree
    rw [hfly] at hfree
    exact absurd hfree (by decide)
  · intro _
    refine ⟨stage, hfits, Or.inr ⟨.cmd (.slot i), ?_, ?_⟩⟩
    · rw [outstanding_of_todo htodo hrest, hnone]
      rfl
    · cases stage <;> rfl

/-- Nothing on the way for a request means nothing in the rings. -/
theorem inRings_filter_eq {r : ReqPtr n} (h : s.outstanding r = 0) :
    s.inRings.filter (Pending.For r) = 0 := by
  rw [← outstanding_of_not_mem (not_mem_todo h)]
  exact h

/-! ## The three ways -/

/-- A ticket after a slot was handed out is one of the old tickets, or the slot
has the one of the new event. -/
theorem OnlySlot.ticket_cases (ho : OnlySlot i s t) {events : List Event}
    (hdeq : t.dequeued = s.dequeued ++ events)
    (hnew : (events = [] ∧ t.tickets i = none) ∨
      ((∃ event, events = [event]) ∧ t.tickets i = some s.dequeued.length))
    {j : Fin n} {k : Nat} (hj : (t.reqs j).inFlight = true)
    (hk : t.tickets j = some k) :
    ((s.reqs j).inFlight = true ∧ s.tickets j = some k) ∨
      (j = i ∧ k = s.dequeued.length ∧ k < t.dequeued.length) := by
  by_cases hji : j = i
  · subst hji
    rcases hnew with ⟨-, hnone⟩ | ⟨⟨event, rfl⟩, hsome⟩
    · rw [hnone] at hk
      exact absurd hk (by simp)
    · rw [hsome, Option.some.injEq] at hk
      subst hk
      rw [hdeq, List.length_append, List.length_singleton]
      exact Or.inr ⟨rfl, rfl, Nat.lt_succ_self _⟩
  · rw [ho.other j hji] at hj
    rw [ho.tickets j hji] at hk
    exact Or.inl ⟨hj, hk⟩

/-- A task that a slot works on is still worked on after a free slot was handed
out. -/
theorem OnlySlot.works (ho : OnlySlot i s t)
    (hfree : (s.reqs i).inFlight = false) {j : Fin n} {k : Nat}
    (hj : (s.reqs j).inFlight = true) (hk : s.tickets j = some k) :
    (t.reqs j).inFlight = true ∧ t.tickets j = some k := by
  have hji : j ≠ i := by
    rintro rfl
    rw [hfree] at hj
    exact absurd hj (by decide)
  rw [ho.other j hji, ho.tickets j hji]
  exact ⟨hj, hk⟩

/-- A free slot is handed out for the events `events`, none or one, with the
ticket of the last one. -/
theorem Tasks.acquired (h : s.Tasks) (ho : OnlySlot i s t)
    (hfree : (s.reqs i).inFlight = false) (events : List Event)
    (hdeq : t.dequeued = s.dequeued ++ events)
    (hrec : t.records = s.records) (herr : t.errors = s.errors)
    (hfly : (t.reqs i).inFlight = true)
    (hnew : (events = [] ∧ t.tickets i = none) ∨
      ((∃ event, events = [event]) ∧ t.tickets i = some s.dequeued.length))
    (hout : s.Output) : t.Tasks := by
  refine ⟨?_, ?_, ?_, ?_⟩
  · intro j k hj hk
    rcases ho.ticket_cases hdeq hnew hj hk with ⟨hs, hks⟩ | ⟨-, -, hlt⟩
    · rw [hdeq, List.length_append]
      exact Nat.lt_add_right _ (h.lt j k hs hks)
    · exact hlt
  · intro j k hj hk r hr
    rw [hrec] at hr
    rcases ho.ticket_cases hdeq hnew hj hk with ⟨hs, hks⟩ | ⟨-, hnext, -⟩
    · exact h.unsettled j k hs hks r hr
    · -- the ticket is new, and every line has an older one
      intro heq
      have hold := (hout.records r hr).ticket_lt heq
      omega
  · intro j j' k hj hj' hk hk'
    rcases ho.ticket_cases hdeq hnew hj hk with ⟨hs, hks⟩ | ⟨hji, hnext, -⟩ <;>
      rcases ho.ticket_cases hdeq hnew hj' hk' with
        ⟨hs', hks'⟩ | ⟨hji', hnext', -⟩
    · exact h.inj j j' k hs hs' hks hks'
    · have hlt := h.lt j k hs hks
      omega
    · have hlt := h.lt j' k hs' hks'
      omega
    · rw [hji, hji']
  · intro k hk
    by_cases hold : k < s.dequeued.length
    · rw [herr, hrec]
      rcases h.accounted k hold with ⟨j, hj, htj⟩ | hsettled
      · exact Or.inl ⟨j, ho.works hfree hj htj⟩
      · exact Or.inr hsettled
    · rcases hnew with ⟨rfl, -⟩ | ⟨⟨event, rfl⟩, hsome⟩
      · rw [hdeq, List.append_nil] at hk
        exact absurd hk hold
      · rw [hdeq, List.length_append, List.length_singleton] at hk
        refine Or.inl ⟨i, hfly, ?_⟩
        rw [hsome, Option.some.injEq]
        omega

theorem Inv.acquired (h : Inv none s) (ho : OnlySlot i s t)
    (hhead : s.reqsList = some i) {stage : Stage} {rest : List (Cmd n)}
    (hfly : (t.reqs i).inFlight = true)
    (hlist : t.reqsList = (s.reqs i).next)
    (hcount : t.nrFreeReqs = s.nrFreeReqs - 1) (hfits : t.Fits i stage)
    (htodo : t.todo = .submit (.slot i) :: rest)
    (hrest : .submit (.slot i) ∉ rest) (htasks : t.Tasks)
    (hfresh : ∀ id, t.nextString ≤ id → t.strings id = none)
    (hout : t.Output) : Inv none t := by
  have hl := h.list
  rw [hhead] at hl
  have hfree : (s.reqs i).inFlight = false := hl.head_free
  refine h.of_onlySlot (fun _ _ => by simp) ho ?_ (fun _ => ?_) htasks hfresh
    hout
  · rw [hlist, hcount]
    refine hl.pop ?_ ?_
    · intro j hj
      rw [ho.other j hj]
    · intro j
      by_cases hj : j = i
      · subst hj
        simp [hfly]
      · simp [ho.other j hj, hj]
  · refine SlotInv.of_todo hfly hfits htodo hrest ?_
    rw [ho.inRings]
    exact inRings_filter_eq ((h.slots i (by simp)).free hfree)

/-- The slot that the callback holds goes on. -/
theorem Inv.resumed (h : Inv (some i) s) (ho : OnlySlot i s t)
    {stage : Stage} (hnone : s.outstanding (.slot i) = 0)
    (hflyS : (s.reqs i).inFlight = true) (hfly : (t.reqs i).inFlight = true)
    (hnext : (t.reqs i).next = (s.reqs i).next)
    (hlist : t.reqsList = s.reqsList)
    (hcount : t.nrFreeReqs = s.nrFreeReqs) (hfits : t.Fits i stage)
    (htodo : t.todo = [.submit (.slot i)]) (htasks : t.Tasks)
    (hfresh : ∀ id, t.nextString ≤ id → t.strings id = none)
    (hout : t.Output) : Inv none t := by
  have hne : ∀ j, j ≠ i → some i ≠ some j := by
    intro j hj heq
    exact hj (Option.some.inj heq).symm
  refine h.of_onlySlot hne ho ?_ (fun _ => ?_) htasks hfresh hout
  · rw [hlist, hcount]
    refine h.list.congr ?_ ?_
    · intro j _
      by_cases hj : j = i
      · rw [hj]
        exact hnext
      · rw [ho.other j hj]
    · intro j
      by_cases hj : j = i
      · rw [hj, hfly, hflyS]
      · rw [ho.other j hj]
  · refine SlotInv.of_todo hfly hfits htodo (List.not_mem_nil) ?_
    rw [ho.inRings]
    exact inRings_filter_eq hnone

/-- The slot that the callback holds becomes free. -/
theorem Inv.released (h : Inv (some i) s) (ho : OnlySlot i s t)
    (hnone : t.outstanding (.slot i) = 0)
    (hflyS : (s.reqs i).inFlight = true) (hfly : (t.reqs i).inFlight = false)
    (hnext : (t.reqs i).next = s.reqsList) (hlist : t.reqsList = some i)
    (hcount : t.nrFreeReqs = s.nrFreeReqs + 1) (htasks : t.Tasks)
    (hfresh : ∀ id, t.nextString ≤ id → t.strings id = none)
    (hout : t.Output) : Inv none t := by
  have hne : ∀ j, j ≠ i → some i ≠ some j := by
    intro j hj heq
    exact hj (Option.some.inj heq).symm
  refine h.of_onlySlot hne ho ?_ (fun _ => ?_) htasks hfresh hout
  · rw [hlist, hcount]
    refine h.list.push ?_ hnext ?_ ?_
    · rw [hflyS]
      decide
    · intro j hj
      rw [ho.other j hj]
    · intro j
      by_cases hj : j = i
      · subst hj
        simp [hfly]
      · simp [ho.other j hj, hj]
  · refine ⟨fun _ => hnone, ?_⟩
    intro hbusy
    rw [hfly] at hbusy
    exact absurd hbusy (by decide)

/-! ## A task that is settled -/

/-- The task of the slot ends with a logged error, with a line of output, or was
no task. -/
theorem Tasks.released (h : s.Tasks) (ho : OnlySlot i s t)
    {lines : Option Record} {errors : List (Option Nat)}
    (hflyS : (s.reqs i).inFlight = true) (hfly : (t.reqs i).inFlight = false)
    (hdeq : t.dequeued = s.dequeued)
    (hrec : t.records = s.records ++ lines.toList)
    (herr : t.errors = s.errors ++ errors)
    (hline : ∀ r ∈ lines, r.ticket = s.tickets i)
    (hend : ∀ k, s.tickets i = some k →
      some k ∈ errors ∨ ∃ r ∈ lines, r.ticket = some k) : t.Tasks := by
  have hother : ∀ j, (t.reqs j).inFlight = true → j ≠ i ∧
      (s.reqs j).inFlight = true ∧ t.tickets j = s.tickets j := by
    intro j hj
    have hji : j ≠ i := by
      rintro rfl
      rw [hfly] at hj
      exact absurd hj (by decide)
    rw [ho.other j hji] at hj
    exact ⟨hji, hj, ho.tickets j hji⟩
  refine ⟨?_, ?_, ?_, ?_⟩
  · intro j k hj hk
    obtain ⟨-, hj', htj⟩ := hother j hj
    rw [htj] at hk
    rw [hdeq]
    exact h.lt j k hj' hk
  · intro j k hj hk r hr
    obtain ⟨hji, hj', htj⟩ := hother j hj
    rw [htj] at hk
    rw [hrec, List.mem_append, Option.mem_toList] at hr
    rcases hr with hold | hnew
    · exact h.unsettled j k hj' hk r hold
    · rw [hline r hnew]
      intro hi
      exact hji (h.inj j i k hj' hflyS hk hi)
  · intro j j' k hj hj' hk hk'
    obtain ⟨-, hs, htj⟩ := hother j hj
    obtain ⟨-, hs', htj'⟩ := hother j' hj'
    exact h.inj j j' k hs hs' (htj ▸ hk) (htj' ▸ hk')
  · intro k hk
    rw [hdeq] at hk
    rw [herr, hrec]
    rcases h.accounted k hk with ⟨j, hj, htj⟩ | hlog | ⟨r, hr, hrk⟩
    · by_cases hji : j = i
      · rw [hji] at htj
        rcases hend k htj with hlog | ⟨r, hr, hrk⟩
        · exact Or.inr (Or.inl (List.mem_append_right _ hlog))
        · exact Or.inr (Or.inr ⟨r,
            List.mem_append_right _ (Option.mem_toList.mpr hr), hrk⟩)
      · refine Or.inl ⟨j, ?_, ?_⟩
        · rw [ho.other j hji]
          exact hj
        · rw [ho.tickets j hji]
          exact htj
    · exact Or.inr (Or.inl (List.mem_append_left _ hlog))
    · exact Or.inr (Or.inr ⟨r, List.mem_append_left _ hr, hrk⟩)

/-- A new line with a ticket that no line had. -/
theorem Output.extended (h : s.Output) (lines : Option Record)
    (hdeq : s.dequeued <+: t.dequeued) (hopen : ∀ o ∈ s.opens, o ∈ t.opens)
    (hrec : t.records = s.records ++ lines.toList)
    (hline : ∀ r ∈ lines, t.RecordOk r ∧ ∀ r' ∈ s.records, r'.ticket ≠ r.ticket)
    (hfrees : ∀ f ∈ t.frees, f ∈ s.frees ∨ f.2 = true)
    (hassert : t.halted ≠ some .assertion) : t.Output where
  records := by
    intro r hr
    rw [hrec, List.mem_append, Option.mem_toList] at hr
    rcases hr with hold | hnew
    · exact (h.records r hold).mono hdeq hopen
    · exact (hline r hnew).1
  nodup := by
    rw [hrec, List.map_append, List.nodup_append]
    refine ⟨h.nodup, ?_, ?_⟩
    · cases lines <;> simp
    · intro a ha b hb
      rw [List.mem_map] at ha hb
      obtain ⟨r', hr', rfl⟩ := ha
      obtain ⟨r, hr, rfl⟩ := hb
      exact (hline r (Option.mem_toList.mp hr)).2 r' hr'
  frees := by
    intro f hf
    rcases hfrees f hf with hold | hnew
    · exact h.frees f hold
    · exact hnew
  asserts := hassert

end Sys

end Ride
