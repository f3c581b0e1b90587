import Xinu.Proofs.Queue.Refine

/-!
# `Xinu.Proofs.Queue.Links`: which links a call writes

The lemmas of the first part need no well-formed table. They read off the
code which entries of the `prev` column a call writes, and that only
`newqueue` moves `nextqueue`.

The second part is about `enqueue` of a process that is on a queue
already. The call does not look for this. Whatever the two queues and the
place of the process, the table afterwards represents no lists
(`not_represents_enqueue`): either the process is the last one of its new
queue while the entries behind it still lead back to it, or its links go
round in a circle.
-/

namespace Xinu.Queuetab

open Lib Function List

variable {state : Int → PrState} {x : Int}

/-! ### What a call writes to `prev` -/

section Writes
variable {t t' : Queuetab} {i v p r : Int} {q : Ulong}

theorem eq_of_setNext (h : t.setNext i v = .ok t') :
    t' = { t with next := update t.next i v } := by
  unfold setNext at h
  split at h
  · exact (Except.ok.inj h).symm
  · cases h

theorem eq_of_setPrev (h : t.setPrev i v = .ok t') :
    t' = { t with prev := update t.prev i v } := by
  unfold setPrev at h
  split at h
  · exact (Except.ok.inj h).symm
  · cases h

theorem eq_of_getNext (h : t.getNext i = .ok v) : v = t.next i := by
  unfold getNext at h
  split at h
  · exact (Except.ok.inj h).symm
  · cases h

theorem eq_of_getPrev (h : t.getPrev i = .ok v) : v = t.prev i := by
  unfold getPrev at h
  split at h
  · exact (Except.ok.inj h).symm
  · cases h

/-- `newqueue` writes `prev` of the two slots it takes. -/
theorem newqueue_prev (h : t.newqueue = .ok (q, t')) (hhead : x ≠ t.nextqueue)
    (htail : x ≠ t.nextqueue + 1) : t'.prev x = t.prev x := by
  obtain ⟨t1, h₁, h⟩ := bind_eq_ok h
  obtain ⟨t2, h₂, h⟩ := bind_eq_ok h
  obtain ⟨t3, h3, h⟩ := bind_eq_ok h
  obtain ⟨t4, h4, h⟩ := bind_eq_ok h
  cases h
  rw [eq_of_setPrev h4, eq_of_setNext h3, eq_of_setPrev h₂, eq_of_setNext h₁]
  simp only [update_of_ne hhead, update_of_ne htail]

section
variable (h : t.enqueue state p q = .ok (r, t'))
include h

/-- What an `enqueue` that returns did: nothing, if it refused, and
otherwise it wrote `prev` of the process and of the tail. -/
theorem enqueue_cases :
    ((isbadqueue q || isbadpid state p) = true ∧ t' = t) ∨
      t'.prev = update (update t.prev p (t.prev (queuetail q))) (queuetail q) p ∧
        t'.nextqueue = t.nextqueue := by
  unfold enqueue at h
  split at h
  · rename_i hbad
    cases h
    exact Or.inl ⟨hbad, rfl⟩
  · obtain ⟨t1, h₁, h⟩ := bind_eq_ok h
    obtain ⟨last, hlast, h⟩ := bind_eq_ok h
    obtain ⟨t2, h₂, h⟩ := bind_eq_ok h
    obtain ⟨last', -, h⟩ := bind_eq_ok h
    obtain ⟨t3, h3, h⟩ := bind_eq_ok h
    obtain ⟨t4, h4, h⟩ := bind_eq_ok h
    cases h
    have hread : last = t.prev (queuetail q) := by rw [eq_of_getPrev hlast, eq_of_setNext h₁]
    right
    rw [eq_of_setPrev h4, eq_of_setNext h3, eq_of_setPrev h₂, eq_of_setNext h₁, hread]
    exact ⟨rfl, rfl⟩

theorem enqueue_prev (hp : x ≠ p) (htail : x ≠ queuetail q) : t'.prev x = t.prev x := by
  rcases enqueue_cases h with ⟨-, rfl⟩ | ⟨hprev, -⟩
  · rfl
  · rw [hprev, update_of_ne htail, update_of_ne hp]

theorem enqueue_nextqueue :
    t'.nextqueue = t.nextqueue := by
  rcases enqueue_cases h with ⟨-, rfl⟩ | ⟨-, hnext⟩
  · rfl
  · exact hnext

end

theorem unlink_nextqueue (h : t.unlink p = .ok t') : t'.nextqueue = t.nextqueue := by
  obtain ⟨before, -, h⟩ := bind_eq_ok h
  obtain ⟨after, -, h⟩ := bind_eq_ok h
  obtain ⟨t1, h₁, h⟩ := bind_eq_ok h
  obtain ⟨again, -, h⟩ := bind_eq_ok h
  obtain ⟨before', -, h⟩ := bind_eq_ok h
  rw [eq_of_setPrev h, eq_of_setNext h₁]

/-- `unlink` writes `prev` of the slot after the process. -/
theorem unlink_prev (h : t.unlink p = .ok t') (hx : x ≠ t.next p) :
    t'.prev x = t.prev x := by
  obtain ⟨before, -, h⟩ := bind_eq_ok h
  obtain ⟨after, hafter, h⟩ := bind_eq_ok h
  obtain ⟨t1, h₁, h⟩ := bind_eq_ok h
  obtain ⟨again, hagain, h⟩ := bind_eq_ok h
  obtain ⟨before', -, h⟩ := bind_eq_ok h
  have ht1 := eq_of_setNext h₁
  -- The second read of `next` sees the same link, also when the process
  -- stands before itself.
  have hsame : again = t.next p := by
    rw [eq_of_getNext hagain, ht1]
    by_cases hb : p = before
    · subst hb
      exact (update_self _ _ _).trans (eq_of_getNext hafter)
    · exact update_of_ne hb _ _
  rw [eq_of_setPrev h, ht1, hsame]
  exact update_of_ne hx _ _

/-- `dequeue` writes `prev` of the first member, which then points at
itself, and of the slot after it. -/
theorem dequeue_prev (h : t.dequeue q = .ok (r, t'))
    (hx : t.next (queuehead q) < NPROC → x ≠ t.next (t.next (queuehead q))) :
    t'.prev x = t.prev x ∨ t'.prev x = x := by
  unfold dequeue at h
  split at h
  · cases h
    exact Or.inl rfl
  · obtain ⟨pid, hpid, h⟩ := bind_eq_ok h
    obtain rfl := eq_of_getNext hpid
    split at h
    case isFalse => cases h; exact Or.inl rfl
    case isTrue hlt =>
      obtain ⟨t1, h₁, h⟩ := bind_eq_ok h
      obtain ⟨t2, h₂, h⟩ := bind_eq_ok h
      obtain ⟨t3, h3, h⟩ := bind_eq_ok h
      cases h
      rw [eq_of_setNext h3, eq_of_setPrev h₂]
      by_cases hself : x = t.next (queuehead q)
      · subst hself
        exact Or.inr (update_self _ _ _)
      · left
        show update t1.prev _ _ x = t.prev x
        rw [update_of_ne hself]
        exact unlink_prev h₁ (hx hlt)

theorem dequeue_nextqueue (h : t.dequeue q = .ok (r, t')) : t'.nextqueue = t.nextqueue := by
  unfold dequeue at h
  split at h
  · cases h
    rfl
  · obtain ⟨pid, -, h⟩ := bind_eq_ok h
    split at h
    · obtain ⟨t1, h₁, h⟩ := bind_eq_ok h
      obtain ⟨t2, h₂, h⟩ := bind_eq_ok h
      obtain ⟨t3, h3, h⟩ := bind_eq_ok h
      cases h
      rw [eq_of_setNext h3, eq_of_setPrev h₂]
      show t1.nextqueue = t.nextqueue
      exact unlink_nextqueue h₁
    · cases h
      rfl

variable (h : t.remove state p = .ok (r, t'))
include h

/-- What a `remove` that returns did: nothing, or `unlink`. -/
theorem remove_cases :
    t' = t ∨ t.unlink p = .ok t' := by
  unfold remove at h
  split at h
  · cases h
    exact Or.inl rfl
  · obtain ⟨found, -, h⟩ := bind_eq_ok h
    cases found with
    | none =>
      cases h
      exact Or.inl rfl
    | some head =>
      obtain ⟨t1, h₁, h⟩ := bind_eq_ok h
      cases h
      exact Or.inr h₁

/-- `remove` writes `prev` of the slot after the process. -/
theorem remove_prev (hx : x ≠ t.next p) : t'.prev x = t.prev x := by
  rcases remove_cases h with rfl | hunlink
  · rfl
  · exact unlink_prev hunlink hx

theorem remove_nextqueue :
    t'.nextqueue = t.nextqueue := by
  rcases remove_cases h with rfl | hunlink
  · rfl
  · exact unlink_nextqueue hunlink

end Writes

/-! ### A second `enqueue` -/

section Twice
variable {t t' : Queuetab} {f f' : Fifo} {j k : Nat} {p x z : Int}

/-- The slot before a slot of a queue is a slot of the same queue. -/
theorem Represents.prev_mem_nodes (hr : t.Represents f) (hk : k < f.count) (hx : x ∈ f.nodes k)
    (hne : x ≠ headSlot k) : t.prev x ∈ f.nodes k := by
  obtain ⟨l1, l2, hsplit⟩ := append_of_mem hx
  cases l1 with
  | nil =>
    -- The first slot is the head.
    rw [Fifo.nodes, nil_append, List.cons.injEq] at hsplit
    exact absurd hsplit.1.symm hne
  | cons y l =>
    obtain ⟨a, u, hau⟩ := exists_eq_concat y l
    have hlinked := hr.linked k hk
    rw [hsplit, hau, List.append_assoc, singleton_append] at hlinked
    rw [hsplit, hau, (linked_split_pair.mp hlinked).2.1.2]
    simp

/-- Following `prev` from a slot of a queue does not leave the queue
before its head. -/
theorem Represents.mem_nodes_of_chain (hr : t.Represents f) (hk : k < f.count) :
    ∀ {l : List Int} {z : Int}, Chain t.prev z l x → z ∈ f.nodes k → headSlot k ∉ l →
      x ∈ f.nodes k := by
  intro l
  induction l with
  | nil =>
    intro z hchain hz _
    exact (chain_nil.mp hchain) ▸ hz
  | cons y l ih =>
    intro z hchain hz hhead
    obtain ⟨rfl, hrest⟩ := hchain
    rw [mem_cons, not_or] at hhead
    exact ih hrest (hr.prev_mem_nodes hk hz (Ne.symm hhead.1)) hhead.2

/-- The `prev` links of a member of a queue do not come back to it. -/
theorem Represents.no_cycle (hr : t.Represents f) (hk : k < f.count) (hp : p ∈ f.contents k)
    {c : List Int} (hpids : ∀ x ∈ c, 0 ≤ x ∧ x < NPROC) (hcycle : Chain t.prev p c p) : c = [] := by
  obtain ⟨l, hchain, hmem⟩ := hr.chain_of_mem hk hp
  have hl : headSlot k ∉ p :: l := headSlot_notMem fun x hx => hr.pid_of_mem hk (hmem x hx)
  have hlong : Chain t.prev p (c ++ p :: l) (headSlot k) := chain_append.mpr ⟨p, hcycle, hchain⟩
  have hsame := Chain.unique hlong hchain
    (fun hm => (mem_append.mp hm).elim (headSlot_notMem hpids) hl) hl
  exact append_left_eq_self.mp hsame

/-- After `enqueue` of a process that is on a queue already, the table
represents no lists. -/
theorem not_represents_enqueue {r : Int} (hr : t.Represents f)
    (hj : j < f.count) (hlive : isbadpid state p = false) (hq : f.Queued p)
    (hrun : t.enqueue state p (qid j) = .ok (r, t')) (hcount : f'.count = f.count) :
    ¬ t'.Represents f' := by
  intro hr'
  obtain ⟨k, hk, hmem⟩ := hq
  have hpid := hr.pid_of_mem hk hmem
  have hcap : j < Queuetab.capacity := Nat.lt_of_lt_of_le hj hr.capacity
  have htp : p ≠ tailSlot j := fun h => not_tailSlot_lt (h ▸ hpid.2)
  have hprev : t'.prev = update (update t.prev p (t.prev (tailSlot j)))
      (tailSlot j) p := by
    rcases enqueue_cases hrun with ⟨hbad, -⟩ | ⟨hprev, -⟩
    · simp [isbadqueue_qid hcap, hlive] at hbad
    · rwa [queuetail_qid hcap] at hprev
  -- The process is the last one of queue `j` now.
  have htail : t'.prev (tailSlot j) = p := by rw [hprev, update_self]
  have hnodes : p ∈ f'.nodes j := by
    have hne : tailSlot j ≠ headSlot j := by simp only [tailSlot]; omega
    exact htail ▸ hr'.prev_mem_nodes (hcount ▸ hj) (Fifo.mem_nodes.mpr (Or.inr (Or.inr rfl))) hne
  have hmem' : p ∈ f'.contents j := by
    rcases Fifo.mem_nodes.mp hnodes with h | h | h
    · simp only [h, headSlot, NPROC] at hpid
      omega
    · exact h
    · exact absurd h htp
  -- Behind the process in its old queue, `prev` still leads back to it.
  obtain ⟨l1, l2, hc⟩ := append_of_mem hmem
  have hlinked := hr.linked k hk
  rw [Fifo.nodes, hc, List.append_assoc, List.cons_append, ← List.cons_append] at hlinked
  have hback : Chain t.prev (tailSlot k) (tailSlot k :: l2.reverse) p :=
    (linked_split.mp hlinked).2.chain_prev
  have hl2 : ∀ x ∈ l2.reverse, x ∈ f.contents k ∧ x ≠ p := by
    intro x hx
    have hx := mem_reverse.mp hx
    have hnd := hr.nodup k hk
    rw [hc] at hnd ⊢
    exact ⟨by simp [hx], fun h => (not_mem_of_nodup_middle hnd).2 (h ▸ hx)⟩
  have hkeep : ∀ x ∈ l2.reverse, t'.prev x = t.prev x := by
    intro x hx
    have hxt : x ≠ tailSlot j := fun h =>
      not_tailSlot_lt (h ▸ (hr.pid_of_mem hk (hl2 x hx).1).2)
    rw [hprev, update_of_ne hxt, update_of_ne (hl2 x hx).2]
  have hpids : ∀ x ∈ l2.reverse, 0 ≤ x ∧ x < NPROC := fun x hx =>
    hr.pid_of_mem hk (hl2 x hx).1
  by_cases hjk : j = k
  · -- In one queue these links close a circle.
    subst hjk
    have hself : t'.prev p = t.prev (tailSlot j) := by
      rw [hprev, update_of_ne htp, update_self]
    have hcycle : Chain t'.prev p (p :: l2.reverse) p :=
      ⟨rfl, hself ▸ hback.2.congr hkeep⟩
    have hnil := hr'.no_cycle (hcount ▸ hj) hmem'
      (forall_mem_cons.mpr ⟨hpid, hpids⟩) hcycle
    cases hnil
  · -- In two queues the process would be on both.
    have hkt : t'.prev (tailSlot k) = t.prev (tailSlot k) := by
      have h1 : tailSlot k ≠ tailSlot j := by simp only [tailSlot, headSlot]; omega
      have h2 : tailSlot k ≠ p := fun h => not_tailSlot_lt (h ▸ hpid.2)
      rw [hprev, update_of_ne h1, update_of_ne h2]
    have hback' := Chain.congr hback (forall_mem_cons.mpr ⟨hkt, hkeep⟩)
    have hhead : headSlot k ∉ tailSlot k :: l2.reverse := by
      rw [mem_cons, not_or]
      exact ⟨by simp only [tailSlot]; omega, headSlot_notMem hpids⟩
    exact hjk (hr'.nodes_disjoint (hcount ▸ hj) (hcount ▸ hk) hnodes
      (hr'.mem_nodes_of_chain (hcount ▸ hk) hback'
        (Fifo.mem_nodes.mpr (Or.inr (Or.inr rfl))) hhead))

end Twice

end Xinu.Queuetab
