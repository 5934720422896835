import Kudos.Kernel.Thread
import Kudos.Library.Chain
import Mathlib.Data.List.Basic
import Mathlib.Data.List.Nodup
import Mathlib.Data.Int.Interval
import Mathlib.Tactic.Linarith

set_option autoImplicit false

/-! # The queues behind the `next` fields

What the pointer structures of the thread system stand for: one first-in first-out list of ready
threads and, per slot of the hash table, the list of threads that wait there (`Queues`). `Stored s q`
says that the tables of `s` represent `q`; it speaks about pointers only. Each function of the
scheduler and the sleep queue then has one lemma here that says what it does to the represented
queues, and that it changes nothing else. -/

namespace Kudos

open Chain ThreadSystem

/-- The ready list and the chains of the sleep queue, by slot. -/
structure Queues where
  ready : List ℤ
  chain : ℕ → List ℤ

/-- The last node of a list, -1 if there is none: what the code keeps in `tail` and in `prev`. -/
def lastTid (l : List ℤ) : ℤ := l.getLast?.getD (-1)

@[simp] theorem lastTid_nil : lastTid [] = -1 := rfl

@[simp] theorem lastTid_concat (l : List ℤ) (t : ℤ) : lastTid (l ++ [t]) = t := by
  simp [lastTid]

/-- A row that can be on a list: any but the idle thread's. -/
def IsTid (t : ℤ) : Prop := 0 < t ∧ t < configMaxThreads

/-- The pointers of `s` represent `q`. -/
structure Stored (s : ThreadSystem) (q : Queues) : Prop where
  ready : Linked s.next s.readyHead q.ready (-1)
  tail : s.readyTail = lastTid q.ready
  chain : ∀ h, Linked s.next (s.sleepqHashtable h) (q.chain h) (-1)
  readyNodup : q.ready.Nodup
  chainNodup : ∀ h, (q.chain h).Nodup
  readyTid : ∀ t ∈ q.ready, IsTid t
  chainTid : ∀ h, ∀ t ∈ q.chain h, IsTid t
  ready_chain : ∀ h, ∀ t ∈ q.ready, t ∉ q.chain h
  chain_chain : ∀ h h', ∀ t ∈ q.chain h, t ∈ q.chain h' → h = h'

/-- `s'` differs from `s` at most in its pointers. -/
structure SameRows (s s' : ThreadSystem) : Prop where
  state : s'.state = s.state
  sleepsOn : s'.sleepsOn = s.sleepsOn
  currentThread : s'.currentThread = s.currentThread

/-- No list of `q` contains `t`. -/
def Queues.Free (q : Queues) (t : ℤ) : Prop := t ∉ q.ready ∧ ∀ h, t ∉ q.chain h

/-! ## Facts about stored queues -/

theorem lastTid_neg_iff {l : List ℤ} (hl : ∀ t ∈ l, IsTid t) : lastTid l < 0 ↔ l = [] := by
  induction l using List.reverseRecOn with
  | nil => simp
  | append_singleton l t _ =>
      have ht : 0 < t := (hl t (by simp)).1
      simp only [lastTid_concat, List.append_eq_nil_iff, List.cons_ne_nil, and_false, iff_false]
      omega

/-- A list of distinct rows is shorter than the table: the fuel of the pointer loops suffices. -/
theorem length_lt_of_nodup {l : List ℤ} (hn : l.Nodup) (hl : ∀ t ∈ l, IsTid t) :
    l.length < configMaxThreads := by
  have hsub : l.toFinset ⊆ Finset.Ioo 0 (configMaxThreads : ℤ) := by
    intro t ht
    rw [Finset.mem_Ioo]
    exact hl t (List.mem_toFinset.1 ht)
  have hcard := Finset.card_le_card hsub
  rw [List.toFinset_card_of_nodup hn, Int.card_Ioo] at hcard
  simp only [configMaxThreads] at hcard ⊢
  omega

/-- Queues survive any change of the table that keeps the links of their members. -/
theorem Stored.congr {s s' : ThreadSystem} {q : Queues} (h : Stored s q)
    (hn : ∀ t, ¬ q.Free t → s'.next t = s.next t) (hh : s'.readyHead = s.readyHead)
    (ht : s'.readyTail = s.readyTail) (hc : s'.sleepqHashtable = s.sleepqHashtable) :
    Stored s' q where
  ready := by
    rw [hh]
    exact h.ready.congr (fun t hm => hn t (fun hf => hf.1 hm))
  tail := by rw [ht]; exact h.tail
  chain i := by
    rw [hc]
    exact (h.chain i).congr (fun t hm => hn t (fun hf => hf.2 i hm))
  readyNodup := h.readyNodup
  chainNodup := h.chainNodup
  readyTid := h.readyTid
  chainTid := h.chainTid
  ready_chain := h.ready_chain
  chain_chain := h.chain_chain

theorem Stored.setState {s : ThreadSystem} {q : Queues} (h : Stored s q) (t : ℤ)
    (v : ThreadState) : Stored (s.setState t v) q :=
  h.congr (by simp) rfl rfl rfl

/-! ## The ready list -/

/-- The ready list is replaced: what has to be checked of the new one. -/
theorem Stored.setReady {s s' : ThreadSystem} {q : Queues} (hst : Stored s q) {l : List ℤ}
    (hready : Linked s'.next s'.readyHead l (-1)) (htail : s'.readyTail = lastTid l)
    (hchain : ∀ i, Linked s'.next (s'.sleepqHashtable i) (q.chain i) (-1))
    (hnodup : l.Nodup) (hmem : ∀ t ∈ l, t ∈ q.ready ∨ (IsTid t ∧ q.Free t)) :
    Stored s' { q with ready := l } where
  ready := hready
  tail := htail
  chain := hchain
  readyNodup := hnodup
  chainNodup := hst.chainNodup
  readyTid t ht := by
    rcases hmem t ht with hm | hm
    · exact hst.readyTid t hm
    · exact hm.1
  chainTid := hst.chainTid
  ready_chain i t ht := by
    rcases hmem t ht with hm | hm
    · exact hst.ready_chain i t hm
    · exact hm.2.2 i
  chain_chain := hst.chain_chain

/-- `scheduler_add_to_ready_list` appends a thread that is on no list. -/
theorem schedulerAddToReadyList_spec {s : ThreadSystem} {q : Queues} (h : Stored s q) {t : ℤ}
    (ht : IsTid t) (hf : q.Free t) :
    ∃ s', schedulerAddToReadyList s t = .ok s' ∧ SameRows s s' ∧
      Stored s' { q with ready := q.ready ++ [t] } := by
  have hne : t ≠ idleThreadTid := by
    have := ht.1
    simp only [idleThreadTid]
    omega
  have hrange : 0 ≤ t ∧ t < (configMaxThreads : ℤ) := ⟨le_of_lt ht.1, ht.2⟩
  have hnodup : (q.ready ++ [t]).Nodup :=
    h.readyNodup.append (List.nodup_singleton t) (List.disjoint_singleton.2 hf.1)
  have hmem : ∀ u ∈ q.ready ++ [t], u ∈ q.ready ∨ (IsTid u ∧ q.Free u) := by
    intro u hu
    rcases List.mem_append.1 hu with hu | hu
    · exact Or.inl hu
    · rw [List.mem_singleton.1 hu]
      exact Or.inr ⟨ht, hf⟩
  -- both branches give a chain of the same shape; they differ in which stores build it
  by_cases htail : s.readyTail < 0
  · have hnil : q.ready = [] := (lastTid_neg_iff h.readyTid).1 (h.tail ▸ htail)
    refine ⟨{ s.setNext t (-1) with readyHead := t, readyTail := t }, ?_, ⟨?_, ?_, rfl⟩, ?_⟩
    · simp [schedulerAddToReadyList, kernelAssert, hne, hrange, htail]; rfl
    · exact state_setNext s t (-1)
    · exact sleepsOn_setNext s t (-1)
    · refine h.setReady ?_ (by simp) (fun i => (h.chain i).congr fun u hu => ?_) hnodup hmem
      · rw [hnil]
        refine ⟨rfl, ?_⟩
        show (s.setNext t (-1)).next t = -1
        simp
      · show (s.setNext t (-1)).next u = s.next u
        have hut : u ≠ t := fun he => hf.2 i (he ▸ hu)
        simp [hut]
  · obtain ⟨l, p, hlp⟩ : ∃ l p, q.ready = l ++ [p] := by
      rcases List.eq_nil_or_concat q.ready with hnil | ⟨l, p, hlp⟩
      · exact absurd (h.tail.trans (by rw [hnil, lastTid_nil])) (by omega)
      · exact ⟨l, p, by simpa using hlp⟩
    have hp : s.readyTail = p := by rw [h.tail, hlp, lastTid_concat]
    have hpt : p ≠ t := fun he => hf.1 (by rw [hlp, he]; simp)
    have hpl : p ∉ l := by
      have := h.readyNodup
      rw [hlp] at this
      exact fun hm => (List.nodup_append.1 this).2.2 p hm p (by simp) rfl
    refine ⟨{ (s.setNext s.readyTail t).setNext t (-1) with readyTail := t }, ?_, ⟨?_, ?_, rfl⟩, ?_⟩
    · simp [schedulerAddToReadyList, kernelAssert, hne, hrange, htail]; rfl
    · show ((s.setNext s.readyTail t).setNext t (-1)).state = s.state
      simp
    · show ((s.setNext s.readyTail t).setNext t (-1)).sleepsOn = s.sleepsOn
      simp
    · refine h.setReady ?_ (by simp) (fun i => (h.chain i).congr fun u hu => ?_) hnodup hmem
      · have hr := h.ready
        simp only [hlp] at hr ⊢
        refine hr.append_node ?_ ?_ ?_
        · show ((s.setNext s.readyTail t).setNext t (-1)).next p = t
          simp [hp, hpt]
        · show ((s.setNext s.readyTail t).setNext t (-1)).next t = -1
          simp
        · intro u hu
          show ((s.setNext s.readyTail t).setNext t (-1)).next u = s.next u
          have hut : u ≠ t := fun he => hf.1 (by rw [hlp, ← he]; simp [hu])
          have hup : u ≠ p := fun he => hpl (he ▸ hu)
          simp [hp, hut, hup]
      · show ((s.setNext s.readyTail t).setNext t (-1)).next u = s.next u
        have hut : u ≠ t := fun he => hf.2 i (he ▸ hu)
        have hup : u ≠ p := fun he => h.ready_chain i p (by rw [hlp]; simp) (he ▸ hu)
        simp [hp, hut, hup]

/-- `scheduler_remove_first_ready` on an empty ready list selects the idle thread. -/
theorem schedulerRemoveFirstReady_nil {s : ThreadSystem} {q : Queues} (h : Stored s q)
    (hq : q.ready = []) : schedulerRemoveFirstReady s = .ok (idleThreadTid, s) := by
  have hhead : s.readyHead = -1 := by
    have := h.ready
    rw [hq] at this
    exact this
  simp [schedulerRemoveFirstReady, hhead, kernelAssert, idleThreadTid]

/-- `scheduler_remove_first_ready` takes the first thread off the ready list. -/
theorem schedulerRemoveFirstReady_cons {s : ThreadSystem} {q : Queues} (h : Stored s q) {t : ℤ}
    {rest : List ℤ} (hq : q.ready = t :: rest) (hst : s.state t = .ready) :
    ∃ s', schedulerRemoveFirstReady s = .ok (t, s') ∧ SameRows s s' ∧
      Stored s' { q with ready := rest } := by
  have ht : IsTid t := h.readyTid t (by rw [hq]; simp)
  have hready := h.ready
  rw [hq] at hready
  obtain ⟨hhead, hrest⟩ := hready
  have h0 : 0 ≤ t := le_of_lt ht.1
  have hne : t ≠ idleThreadTid := by
    have := ht.1
    simp only [idleThreadTid]
    omega
  have hnodup := h.readyNodup
  rw [hq, List.nodup_cons] at hnodup
  refine ⟨{ s with
      readyTail := if s.readyTail = t then -1 else s.readyTail
      readyHead := s.next t }, ?_, ⟨rfl, rfl, rfl⟩, ?_⟩
  · simp [schedulerRemoveFirstReady, hhead, h0, hne, hst, kernelAssert]
    rfl
  · refine h.setReady hrest ?_ h.chain hnodup.2 fun u hu => ?_
    · have htail := h.tail
      rw [hq] at htail
      show (if s.readyTail = t then -1 else s.readyTail) = lastTid rest
      rcases List.eq_nil_or_concat rest with hnil | ⟨l, p, hlp⟩
      · simp [htail, hnil, lastTid]
      · rw [List.concat_eq_append] at hlp
        have hpt : p ≠ t := fun he => hnodup.1 (by rw [hlp, he]; simp)
        rw [htail, hlp, ← List.cons_append, lastTid_concat, lastTid_concat, if_neg hpt]
    · rw [hq]
      exact Or.inl (List.mem_cons_of_mem _ hu)

/-! ## The chains of the sleep queue -/

/-- The walk of `sleepq_add` stops at the last thread of a chain. -/
theorem sleepqLast_spec {s : ThreadSystem} {l : List ℤ} {a p : ℤ} {fuel : ℕ}
    (hl : Linked s.next a (l ++ [p]) (-1)) (htid : ∀ t ∈ l ++ [p], IsTid t)
    (hfuel : l.length < fuel) : sleepqLast s fuel a = .ok p := by
  induction l generalizing a fuel with
  | nil =>
      obtain ⟨fuel, rfl⟩ : ∃ f, fuel = f + 1 := ⟨fuel - 1, by simp at hfuel; omega⟩
      obtain ⟨rfl, hend⟩ := hl
      have hstop : ¬ 0 < s.next a := by
        have : s.next a = -1 := hend
        omega
      simp [sleepqLast, hstop]
  | cons x xs ih =>
      obtain ⟨fuel, rfl⟩ : ∃ f, fuel = f + 1 := ⟨fuel - 1, by simp at hfuel; omega⟩
      obtain ⟨rfl, hxs⟩ := hl
      have hgo : 0 < s.next a := by
        have hstart := hxs.start
        cases xs with
        | nil =>
            have hp : s.next a = p := hstart
            rw [hp]
            exact (htid p (by simp)).1
        | cons y ys =>
            have hy : s.next a = y := hstart
            rw [hy]
            exact (htid y (by simp)).1
      rw [sleepqLast, if_pos hgo]
      exact ih hxs (fun t ht => htid t (List.mem_cons_of_mem _ ht))
        (by simp only [List.length_cons] at hfuel; omega)

/-- The search of `sleepq_wake` stops at the first thread that waits for the resource. -/
theorem sleepqFind_hit {s : ThreadSystem} {r : ℕ} {pre post : List ℤ} {w prev first : ℤ} {fuel : ℕ}
    (hl : Linked s.next first (pre ++ w :: post) (-1)) (htid : ∀ t ∈ pre, IsTid t)
    (hpre : ∀ t ∈ pre, s.sleepsOn t ≠ r) (hw : s.sleepsOn w = r) (hfuel : pre.length < fuel) :
    sleepqFind s r fuel prev first = .ok (pre.getLast?.getD prev, w) := by
  induction pre generalizing prev first fuel with
  | nil =>
      obtain ⟨fuel, rfl⟩ : ∃ f, fuel = f + 1 := ⟨fuel - 1, by simp at hfuel; omega⟩
      obtain ⟨rfl, -⟩ := hl
      simp [sleepqFind, hw]
  | cons x xs ih =>
      obtain ⟨fuel, rfl⟩ : ∃ f, fuel = f + 1 := ⟨fuel - 1, by simp at hfuel; omega⟩
      obtain ⟨rfl, hxs⟩ := hl
      have hgo : 0 < first ∧ s.sleepsOn first ≠ r :=
        ⟨(htid first (by simp)).1, hpre first (by simp)⟩
      rw [sleepqFind, if_pos hgo, ih hxs (fun t ht => htid t (List.mem_cons_of_mem _ ht))
        (fun t ht => hpre t (List.mem_cons_of_mem _ ht))
        (by simp only [List.length_cons] at hfuel; omega)]
      cases xs <;> simp [List.getLast?_cons]

/-- The search runs off the end of a chain on which nobody waits for the resource. -/
theorem sleepqFind_miss {s : ThreadSystem} {r : ℕ} {l : List ℤ} {prev first : ℤ} {fuel : ℕ}
    (hl : Linked s.next first l (-1)) (htid : ∀ t ∈ l, IsTid t)
    (hr : ∀ t ∈ l, s.sleepsOn t ≠ r) (hfuel : l.length < fuel) :
    sleepqFind s r fuel prev first = .ok (l.getLast?.getD prev, -1) := by
  induction l generalizing prev first fuel with
  | nil =>
      obtain ⟨fuel, rfl⟩ : ∃ f, fuel = f + 1 := ⟨fuel - 1, by simp at hfuel; omega⟩
      have hend : first = -1 := hl
      simp [sleepqFind, hend]
  | cons x xs ih =>
      obtain ⟨fuel, rfl⟩ : ∃ f, fuel = f + 1 := ⟨fuel - 1, by simp at hfuel; omega⟩
      obtain ⟨rfl, hxs⟩ := hl
      have hgo : 0 < first ∧ s.sleepsOn first ≠ r :=
        ⟨(htid first (by simp)).1, hr first (by simp)⟩
      rw [sleepqFind, if_pos hgo, ih hxs (fun t ht => htid t (List.mem_cons_of_mem _ ht))
        (fun t ht => hr t (List.mem_cons_of_mem _ ht))
        (by simp only [List.length_cons] at hfuel; omega)]
      cases xs <;> simp [List.getLast?_cons]

/-- Replace the chain of one slot. -/
def Queues.setChain (q : Queues) (h : ℕ) (l : List ℤ) : Queues :=
  { q with chain := Function.update q.chain h l }

@[simp] theorem Queues.setChain_ready (q : Queues) (h : ℕ) (l : List ℤ) :
    (q.setChain h l).ready = q.ready := rfl

@[simp] theorem Queues.setChain_chain (q : Queues) (h : ℕ) (l : List ℤ) :
    (q.setChain h l).chain = Function.update q.chain h l := rfl

/-- The membership side of a change to one chain: the new chain has distinct members, all of which
    were on the old one or on no list at all. -/
theorem Stored.setChain {s s' : ThreadSystem} {q : Queues} (hst : Stored s q) {h : ℕ} {l : List ℤ}
    (hready : Linked s'.next s'.readyHead q.ready (-1)) (htail : s'.readyTail = s.readyTail)
    (hchain : ∀ i, Linked s'.next (s'.sleepqHashtable i) (Function.update q.chain h l i) (-1))
    (hnodup : l.Nodup) (hmem : ∀ t ∈ l, t ∈ q.chain h ∨ (IsTid t ∧ q.Free t)) :
    Stored s' (q.setChain h l) where
  ready := hready
  tail := htail.trans hst.tail
  chain := hchain
  readyNodup := hst.readyNodup
  chainNodup i := by
    by_cases hi : i = h
    · subst hi; simpa using hnodup
    · simpa [hi] using hst.chainNodup i
  readyTid := hst.readyTid
  chainTid i t ht := by
    by_cases hi : i = h
    · subst hi
      rcases hmem t (by simpa using ht) with hm | hm
      · exact hst.chainTid i t hm
      · exact hm.1
    · exact hst.chainTid i t (by simpa [hi] using ht)
  ready_chain i t ht := by
    by_cases hi : i = h
    · subst hi
      intro hm
      rcases hmem t (by simpa using hm) with hm | hm
      · exact hst.ready_chain i t ht hm
      · exact hm.2.1 ht
    · simpa [hi] using hst.ready_chain i t ht
  chain_chain i j t hti htj := by
    by_cases hi : i = h
    · by_cases hj : j = h
      · rw [hi, hj]
      · subst hi
        have htj' : t ∈ q.chain j := by simpa [hj] using htj
        rcases hmem t (by simpa using hti) with hm | hm
        · exact hst.chain_chain i j t hm htj'
        · exact absurd htj' (hm.2.2 j)
    · have hti' : t ∈ q.chain i := by simpa [hi] using hti
      by_cases hj : j = h
      · subst hj
        rcases hmem t (by simpa using htj) with hm | hm
        · exact hst.chain_chain i j t hti' hm
        · exact absurd hti' (hm.2.2 i)
      · exact hst.chain_chain i j t hti' (by simpa [hj] using htj)

/-- Unlinking `w` takes it out of its chain. -/
theorem sleepqUnlink_spec {s : ThreadSystem} {q : Queues} (hst : Stored s q) {h : ℕ}
    {pre post : List ℤ} {w : ℤ} (hq : q.chain h = pre ++ w :: post) :
    SameRows s (sleepqUnlink s h (lastTid pre) w) ∧
      Stored (sleepqUnlink s h (lastTid pre) w) (q.setChain h (pre ++ post)) ∧
      (q.setChain h (pre ++ post)).Free w := by
  have hnodup := hst.chainNodup h
  rw [hq] at hnodup
  have hnodup' : (pre ++ post).Nodup :=
    hnodup.sublist (List.Sublist.append_left (List.sublist_cons_self w post) pre)
  have hmem : ∀ t ∈ pre ++ post, t ∈ q.chain h ∨ (IsTid t ∧ q.Free t) := by
    intro t ht
    left
    rw [hq]
    rcases List.mem_append.1 ht with ht | ht
    · exact List.mem_append.2 (Or.inl ht)
    · exact List.mem_append.2 (Or.inr (List.mem_cons_of_mem _ ht))
  have hw : w ∈ q.chain h := by rw [hq]; simp
  have hfree : (q.setChain h (pre ++ post)).Free w := by
    refine ⟨fun hr => hst.ready_chain h w hr hw, ?_⟩
    intro i hi
    by_cases hih : i = h
    · subst hih
      simp only [Queues.setChain_chain, Function.update_self] at hi
      have := List.nodup_middle.1 hnodup
      exact (List.nodup_cons.1 this).1 hi
    · have : w ∈ q.chain i := by simpa [hih] using hi
      exact hih (hst.chain_chain i h w this hw)
  have hpretid : ∀ t ∈ pre, IsTid t := fun t ht => hst.chainTid h t (by rw [hq]; simp [ht])
  have hlink := hst.chain h
  rw [hq] at hlink
  rcases List.eq_nil_or_concat pre with hnil | ⟨l, p, hlp⟩
  · subst hnil
    have heq : sleepqUnlink s h (lastTid []) w = s.setSlot h (s.next w) := by
      simp [sleepqUnlink]
    rw [heq]
    refine ⟨⟨rfl, rfl, rfl⟩, ?_, hfree⟩
    refine hst.setChain hst.ready rfl (fun i => ?_) hnodup' hmem
    by_cases hi : i = h
    · subst hi
      simpa using hlink.2
    · simpa [hi] using hst.chain i
  · rw [List.concat_eq_append] at hlp
    subst hlp
    have hp : 0 < p := (hpretid p (by simp)).1
    have heq : sleepqUnlink s h (lastTid (l ++ [p])) w = s.setNext p (s.next w) := by
      rw [lastTid_concat, sleepqUnlink, if_neg (by omega)]
    rw [heq]
    have hpl : p ∉ l := by
      have := (List.nodup_append.1 (List.nodup_append.1 hnodup).1).2.2
      exact fun hm => this p hm p (by simp) rfl
    have hppost : p ∉ post := by
      have := (List.nodup_append.1 hnodup).2.2
      exact fun hm => this p (by simp) p (List.mem_cons_of_mem _ hm) rfl
    have hpchain : p ∈ q.chain h := by rw [hq]; simp
    refine ⟨⟨by simp, by simp, rfl⟩, ?_, hfree⟩
    refine hst.setChain ?_ rfl (fun i => ?_) hnodup' hmem
    · refine hst.ready.congr (fun t ht => ?_)
      have htp : t ≠ p := fun he => hst.ready_chain h t ht (he ▸ hpchain)
      simp [htp]
    · by_cases hi : i = h
      · subst hi
        simp only [setNext_sleepqHashtable, Function.update_self]
        refine hlink.unlink (by simp) ?_ ?_
        · intro t ht
          have htp : t ≠ p := fun he => hpl (he ▸ ht)
          simp [htp]
        · intro t ht
          have htp : t ≠ p := fun he => hppost (he ▸ ht)
          simp [htp]
      · simp only [setNext_sleepqHashtable, Function.update_of_ne hi]
        refine (hst.chain i).congr (fun t ht => ?_)
        have htp : t ≠ p := fun he => hi (hst.chain_chain i h t ht (he ▸ hpchain))
        simp [htp]

/-- Releasing a thread that is on no list clears its `sleeps_on`; one that sleeps becomes ready and
    goes to the end of the ready list. -/
theorem sleepqRelease_spec {s : ThreadSystem} {q : Queues} (hst : Stored s q) {w : ℤ}
    (hw : IsTid w) (hf : q.Free w) :
    ∃ s', sleepqRelease s w = .ok s' ∧ s'.currentThread = s.currentThread ∧
      s'.sleepsOn = Function.update s.sleepsOn w 0 ∧
      s'.state = (if s.state w = .sleeping then Function.update s.state w .ready else s.state) ∧
      Stored s' { q with ready := if s.state w = .sleeping then q.ready ++ [w] else q.ready } := by
  have hst1 : Stored ((s.setSleepsOn w 0).setNext w (-1)) q := by
    refine hst.congr (fun t ht => ?_) rfl rfl rfl
    have htw : t ≠ w := fun he => ht (he ▸ hf)
    simp [htw]
  by_cases hsl : s.state w = .sleeping
  · obtain ⟨s', hok, hsame, hst'⟩ :=
      schedulerAddToReadyList_spec (hst1.setState w .ready) hw hf
    refine ⟨s', ?_, ?_, ?_, ?_, ?_⟩
    · simpa [sleepqRelease, hsl] using hok
    · rw [hsame.currentThread]; rfl
    · rw [hsame.sleepsOn]; simp
    · rw [hsame.state, if_pos hsl]; simp
    · rw [if_pos hsl]; exact hst'
  · refine ⟨(s.setSleepsOn w 0).setNext w (-1), ?_, rfl, by simp, ?_, ?_⟩
    · simp [sleepqRelease, hsl]
    · rw [if_neg hsl]; simp
    · rw [if_neg hsl]; exact hst1

/-! ## `sleepq_add` -/

section

variable {s : ThreadSystem} {q : Queues} {h : ℕ} {me p : ℤ} {l : List ℤ}

theorem Stored.nodup_append (hst : Stored s q) (hf : q.Free me) : (q.chain h ++ [me]).Nodup :=
  (hst.chainNodup h).append (List.nodup_singleton me) (List.disjoint_singleton.2 (hf.2 h))

theorem mem_or_free_of_mem_append (ht : IsTid me) (hf : q.Free me) :
    ∀ t ∈ q.chain h ++ [me], t ∈ q.chain h ∨ (IsTid t ∧ q.Free t) := by
  intro t hm
  rcases List.mem_append.1 hm with hm | hm
  · exact Or.inl hm
  · rw [List.mem_singleton.1 hm]
    exact Or.inr ⟨ht, hf⟩

/-- A thread goes to an empty chain. -/
theorem Stored.append_of_nil (hst : Stored s q) (ht : IsTid me) (hf : q.Free me) (hnext : s.next me = -1)
    (hnil : q.chain h = []) : Stored (s.setSlot h me) (q.setChain h (q.chain h ++ [me])) := by
  refine hst.setChain hst.ready rfl (fun i => ?_) (hst.nodup_append hf) (mem_or_free_of_mem_append ht hf)
  by_cases hi : i = h
  · subst hi
    simp [hnil, hnext]
  · simpa [hi] using hst.chain i

/-- A thread goes behind the last one of a chain. -/
theorem Stored.append_of_concat (hst : Stored s q) (ht : IsTid me) (hf : q.Free me)
    (hnext : s.next me = -1) (hlp : q.chain h = l ++ [p]) :
    Stored (s.setNext p me) (q.setChain h (q.chain h ++ [me])) := by
  have hpchain : p ∈ q.chain h := by rw [hlp]; simp
  have hpme : p ≠ me := fun he => hf.2 h (he ▸ hpchain)
  have hpl : p ∉ l := by
    have := hst.chainNodup h
    rw [hlp] at this
    exact fun hm => (List.nodup_append.1 this).2.2 p hm p (by simp) rfl
  refine hst.setChain ?_ rfl (fun i => ?_) (hst.nodup_append hf) (mem_or_free_of_mem_append ht hf)
  · refine hst.ready.congr (fun t hm => ?_)
    have htp : t ≠ p := fun he => hst.ready_chain h t hm (he ▸ hpchain)
    simp [htp]
  · by_cases hi : i = h
    · subst hi
      simp only [setNext_sleepqHashtable, Function.update_self]
      have hlink := hst.chain i
      rw [hlp] at hlink ⊢
      refine hlink.append_node (by simp) ?_ ?_
      · simp [hnext, hpme.symm]
      · intro t hm
        have htp : t ≠ p := fun he => hpl (he ▸ hm)
        simp [htp]
    · simp only [setNext_sleepqHashtable, Function.update_of_ne hi]
      refine (hst.chain i).congr (fun t hm => ?_)
      have htp : t ≠ p := fun he => hi (hst.chain_chain i h t hm (he ▸ hpchain))
      simp [htp]

theorem Stored.slot_of_nil (hst : Stored s q) (hnil : q.chain h = []) : s.sleepqHashtable h = -1 := by
  have := hst.chain h
  rw [hnil] at this
  exact this

theorem Stored.slot_pos (hst : Stored s q) (hlp : q.chain h = l ++ [p]) : 0 < s.sleepqHashtable h := by
  rw [(hst.chain h).start]
  cases hc : q.chain h with
  | nil => rw [hc] at hlp; simp at hlp
  | cons x xs => exact (hst.chainTid h x (by rw [hc]; simp)).1

/-- The loop of `sleepq_add` ends at the last thread of the chain. -/
theorem Stored.sleepqLast_eq (hst : Stored s q) (hlp : q.chain h = l ++ [p]) :
    sleepqLast s configMaxThreads (s.sleepqHashtable h) = .ok p := by
  have hlink := hst.chain h
  have htids := hst.chainTid h
  have hlen := length_lt_of_nodup (hst.chainNodup h) htids
  rw [hlp] at hlink htids hlen
  refine sleepqLast_spec hlink htids ?_
  simp only [List.length_append, List.length_singleton] at hlen
  omega

end

/-- `sleepq_add` appends the calling thread, which is on no list, to the chain of its resource. -/
theorem sleepqAdd_spec {s : ThreadSystem} {q : Queues} (hst : Stored s q) {cpu r : ℕ}
    (ht : IsTid (s.currentThread cpu)) (hf : q.Free (s.currentThread cpu)) :
    ∃ s', sleepqAdd s cpu r = .ok s' ∧ s'.currentThread = s.currentThread ∧ s'.state = s.state ∧
      s'.sleepsOn = Function.update s.sleepsOn (s.currentThread cpu) (r % 2 ^ 32) ∧
      Stored s' (q.setChain (sleepqHash r) (q.chain (sleepqHash r) ++ [s.currentThread cpu])) := by
  set me := s.currentThread cpu with hme
  set s1 := (s.setNext me (-1)).setSleepsOn me (r % 2 ^ 32) with hs1
  have hne : me ≠ idleThreadTid := by
    have := ht.1
    simp only [idleThreadTid]
    omega
  have hst1 : Stored s1 q := by
    refine hst.congr (fun t ht => ?_) rfl rfl rfl
    have htw : t ≠ me := fun he => ht (he ▸ hf)
    simp [s1, htw]
  have hnext : s1.next me = -1 := by simp [s1]
  rcases List.eq_nil_or_concat (q.chain (sleepqHash r)) with hnil | ⟨l, p, hlp⟩
  · refine ⟨s1.setSlot (sleepqHash r) me, ?_, rfl, by simp [s1], by simp [s1],
      hst1.append_of_nil ht hf hnext hnil⟩
    have hempty : s.sleepqHashtable (sleepqHash r) ≤ 0 := by
      rw [hst.slot_of_nil hnil]
      decide
    simp [sleepqAdd, kernelAssert, ← hme, hne, hempty, s1]
  · rw [List.concat_eq_append] at hlp
    refine ⟨s1.setNext p me, ?_, rfl, by simp [s1], by simp [s1],
      hst1.append_of_concat ht hf hnext hlp⟩
    have hpos : ¬ s.sleepqHashtable (sleepqHash r) ≤ 0 := not_le.2 (hst.slot_pos hlp)
    have hlast : sleepqLast ((s.setNext me (-1)).setSleepsOn me (r % 2 ^ 32)) configMaxThreads
        (s.sleepqHashtable (sleepqHash r)) = .ok p := hst1.sleepqLast_eq hlp
    unfold sleepqAdd
    simp only [kernelAssert, ← hme, if_pos hne, setSleepsOn_sleepqHashtable,
      setNext_sleepqHashtable, if_neg hpos, hlast]
    rfl

end Kudos
