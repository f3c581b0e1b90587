import Mathlib.Data.List.GetD
import Mathlib.Data.List.OfFn
import Xinu.Lib.Chain
import Xinu.Proofs.Config.Emit
import Xinu.System.TypeList

/-!
# `Xinu.Proofs.Config.TypeList`: records out of memory that is not zero

`initattr` writes every member of a record but `next`, and five of the six
characters of each "ioerr". What is missing has to be in the memory that
`malloc` returns (`Clean`). `types_right_iff`: the type list is right
after every `mktype` exactly when all of the memory was like this.

Clean memory makes the records what the parser's model keeps as a list of
entries: `records_of_ftypes` follows the parser through the type
declarations of a file, with `mktype_simulates` and `newattr_simulates` as
the two steps.
-/

namespace Xinu.Config

open Lib Function List

/-! ### Strings -/

section Strings
variable {f : Field} {l t : List Char}

theorem cstring_append (hl : NUL ∉ l) : cstring (l ++ t) = (cstring t).map (l ++ ·) := by
  induction l with
  | nil => exact Option.map_id'.symm
  | cons c l ih =>
    have hc : c ≠ NUL := fun hc => hl (hc ▸ mem_cons_self)
    rw [cons_append, cstring, if_neg hc, ih fun h => hl (mem_cons_of_mem c h),
      Option.map_map]
    rfl

/-- The characters after `strncpy`: the source, zeros up to the size that
was given, and then what was there. -/
theorem ofFn_strncpy {n : Nat} (hn : n ≤ CONFMAXNM) (hl : l.length ≤ n) :
    List.ofFn (f.strncpy l n) =
      l ++ (List.replicate (n - l.length) NUL ++ (List.ofFn f).drop n) := by
  have hmax : CONFMAXNM = 20 := rfl
  refine ext_getElem (by simp; omega) fun i hi hi' => ?_
  rw [length_ofFn] at hi
  simp only [List.getElem_ofFn, Field.strncpy]
  by_cases hsrc : i < l.length
  · rw [if_pos (by omega), getD_eq_getElem _ _ hsrc, getElem_append_left hsrc]
  · rw [getElem_append_right (by omega)]
    by_cases hpad : i < n
    · rw [if_pos hpad, getD_eq_default _ _ (by omega), getElem_append_left (by simp; omega),
        List.getElem_replicate]
    · rw [if_neg hpad, getElem_append_right (by simp; omega), getElem_drop,
        List.getElem_ofFn]
      congr
      simp only [length_replicate]
      omega

theorem NUL_notMem_name (id : Ident) : NUL ∉ id.name := fun h =>
  absurd (id.forall_name NUL h) (by decide)

theorem Ident.length_name (id : Ident) : id.name.length < CONFMAXNM :=
  Nat.lt_of_le_of_lt (length_take_le _ _) (by decide)

/-- A name fits into a field, with its terminating zero. -/
theorem string_name (id : Ident) : (f.strncpy id.name CONFMAXNM).string = some id.name := by
  have hlen := id.length_name
  obtain ⟨k, hk⟩ : ∃ k, CONFMAXNM - id.name.length = k + 1 :=
    ⟨CONFMAXNM - id.name.length - 1, by omega⟩
  rw [Field.string, ofFn_strncpy (Nat.le_refl _) (by omega), hk,
    cstring_append (NUL_notMem_name id), replicate_succ, cons_append, cstring,
    if_pos rfl]
  exact congrArg some (append_nil _)

/-- Five characters of "ioerr" are a string when a zero follows. -/
theorem string_ioerr :
    (f.strncpy "ioerr".toList 5).string = some "ioerr".toList ↔ f 5 = NUL := by
  have hdrop : (List.ofFn f).drop 5 = f 5 :: (List.ofFn f).drop 6 := by
    rw [drop_eq_getElem_cons (by rw [length_ofFn]; decide), List.getElem_ofFn]
    rfl
  rw [Field.string, ofFn_strncpy (by decide) (by decide), cstring_append (by decide)]
  show Option.map _ (cstring ((List.ofFn f).drop 5)) = _ ↔ _
  rw [hdrop, cstring]
  split
  next h => exact iff_of_true rfl h
  next h =>
    refine iff_of_false (fun heq => ?_) h
    obtain ⟨r, hr, hlen⟩ := Option.map_eq_some_iff.mp heq
    obtain ⟨r', -, rfl⟩ := Option.map_eq_some_iff.mp hr
    -- Any other character there makes the string longer.
    exact absurd (congrArg List.length hlen) (by simp)

end Strings

/-! ### Records -/

/-- The record has the members of the entry, and its routines as
strings. -/
structure Shows (r : TypeRec) (e : DevEnt) : Prop where
  name : r.name = e.name
  tnum : r.tnum = e.tnum
  device : r.device = e.device
  csr : r.csr = e.csr
  irq : r.irq = e.irq
  minor : r.minor = e.minor
  routines : ∀ rt, (r.routine rt).string = some (e.routine rt)

/-- Memory that already has what `initattr` leaves out. -/
def Clean (r : TypeRec) : Prop := r.next = NIL ∧ ∀ rt, r.routine rt 5 = NUL

section Records
variable {r : TypeRec} {e e' : DevEnt} {a : Attr} {tnum deviceid : Nat}

theorem shows_initattr_iff : Shows (r.initattr tnum deviceid) (initattr tnum deviceid) ↔
    ∀ rt, r.routine rt 5 = NUL :=
  ⟨fun h rt => string_ioerr.mp (h.routines rt), fun h =>
    ⟨rfl, rfl, rfl, rfl, rfl, rfl, fun rt => string_ioerr.mpr (h rt)⟩⟩

/-- The attributes set a record as they set an entry. -/
theorem Shows.newattr (h : Shows r e) (ha : Sets a e e') : Shows (r.newattr a) e' := by
  have hcsr : e'.csr = _ := congrArg Values.csr ha.values
  have hirq : e'.irq = _ := congrArg Values.irq ha.values
  have hroutine : e'.routine = _ := congrArg Values.routine ha.values
  obtain ⟨hname, htnum, hdevice, hcsr', hirq', hminor, hroutines⟩ := h
  rw [← ha.name] at hname
  rw [← ha.tnum] at htnum
  rw [← ha.device] at hdevice
  rw [← ha.minor] at hminor
  cases a with
  | csr val =>
    exact ⟨hname, htnum, hdevice, hcsr.symm, hirq'.trans hirq.symm, hminor, hroutine ▸ hroutines⟩
  | irq val =>
    exact ⟨hname, htnum, hdevice, hcsr'.trans hcsr.symm, hirq.symm, hminor, hroutine ▸ hroutines⟩
  | routine rt0 id =>
    refine ⟨hname, htnum, hdevice, hcsr'.trans hcsr.symm, hirq'.trans hirq.symm, hminor,
      fun rt => ?_⟩
    rw [hroutine]
    simp only [TypeRec.newattr]
    by_cases hrt : rt = rt0
    · subst hrt
      rw [update_self, string_name]
      simp [Values.override, lastOf, Attr.routine?]
    · rw [update_of_ne hrt, hroutines rt]
      simp [Values.override, lastOf, Attr.routine?, Ne.symm hrt, DevEnt.values]

end Records

/-! ### The list -/

/-- `p->next`. -/
def TypeList.next (t : TypeList) (p : Nat) : Nat := ((t.mem p).map TypeRec.next).getD NIL

/-- The records at `ps` show the entries. -/
def TypeList.RecordsShow (t : TypeList) (ps : List Nat) (es : List DevEnt) : Prop :=
  List.Forall₂ (fun p e => ∃ r, t.mem p = some r ∧ Shows r e) ps es

/-- `ftypes` is a list that ends in `NIL`, with exactly these entries. -/
def TypeList.IsTypeList (t : TypeList) (es : List DevEnt) : Prop :=
  ∃ ps, Chain t.next t.ftypes ps NIL ∧ NIL ∉ ps ∧ t.RecordsShow ps es

/-- The first records. -/
def Mallocs.nodes (M : Mallocs) (n : Nat) : List Nat := (List.range n).map M.addr

section Nodes
variable (M : Mallocs) (n : Nat)

theorem nodes_succ : M.nodes (n + 1) = M.nodes n ++ [M.addr n] := by
  rw [Mallocs.nodes, range_succ, map_append]
  rfl

theorem NIL_notMem_nodes : NIL ∉ M.nodes n := fun h => by
  obtain ⟨k, -, hk⟩ := mem_map.mp h
  exact M.nonnull k hk

theorem addr_notMem_nodes : M.addr n ∉ M.nodes n := fun h => by
  obtain ⟨k, hk, heq⟩ := mem_map.mp h
  exact absurd (mem_range.mp hk) (by rw [M.injective heq]; omega)

theorem length_nodes : (M.nodes n).length = n := by
  rw [Mallocs.nodes, length_map, length_range]

end Nodes

namespace TypeList

/-- The records so far are a list of the entries, and the next attribute
goes to the last of them. -/
structure Built (M : Mallocs) (t : TypeList) (es : List DevEnt) : Prop where
  mallocs : t.mallocs = es.length
  chain : Chain t.next t.ftypes (M.nodes es.length) NIL
  records : t.RecordsShow (M.nodes es.length) es
  currtype : es ≠ [] → t.currtype = M.addr (es.length - 1)

/-- The list after `mktype`: the last record was just made, and points to
where the memory for it pointed. -/
structure Extended (M : Mallocs) (t : TypeList) (es : List DevEnt) (tnum deviceid : Nat) :
    Prop where
  mallocs : t.mallocs = es.length + 1
  chain : Chain t.next t.ftypes (M.nodes (es.length + 1)) (M.content es.length).next
  records : t.RecordsShow (M.nodes es.length) es
  last : t.mem (M.addr es.length) = some ((M.content es.length).initattr tnum deviceid)
  currtype : t.currtype = M.addr es.length

section Steps
variable {M : Mallocs} {t t' : TypeList} {es : List DevEnt} {ps : List Nat} {e e' : DevEnt}
  {a : Attr} {r : TypeRec} {p tnum deviceid : Nat}

theorem built_nil (M : Mallocs) : Built M {} [] :=
  ⟨rfl, rfl, .nil, fun h => absurd rfl h⟩

theorem Built.isTypeList (h : Built M t es) : t.IsTypeList es :=
  ⟨_, h.chain, NIL_notMem_nodes M _, h.records⟩

theorem next_of_mem (h : t.mem p = some r) : t.next p = r.next := by
  rw [next, h]
  rfl

theorem mem_set_self : (t.set p r).mem p = some r := update_self ..

theorem mem_set_of_ne {q : Nat} (h : q ≠ p) : (t.set p r).mem q = t.mem q :=
  update_of_ne h _ _

theorem next_set : (t.set p r).next = update t.next p r.next := by
  funext q
  by_cases hq : q = p
  · subst hq
    rw [update_self, next, mem_set_self]
    rfl
  · rw [update_of_ne hq, next, mem_set_of_ne hq, next]

theorem deref_of_mem (h : t.mem p = some r) : t.deref p = .ok r := by
  rw [deref, h]

/-- Writing records that go on to show their entries. -/
theorem RecordsShow.mono (h : t.RecordsShow ps es)
    (hmem : ∀ p ∈ ps, ∀ r e, t.mem p = some r → Shows r e → ∃ r', t'.mem p = some r' ∧ Shows r' e) :
    t'.RecordsShow ps es := by
  refine ((List.forall₂_and_left _ _).mpr ⟨fun _ hp => hp, h⟩).imp ?_
  rintro p e ⟨hp, r, hr, he⟩
  exact hmem p hp r e hr he

theorem RecordsShow.of_mem_eq (h : t.RecordsShow ps es) (hmem : ∀ p ∈ ps, t'.mem p = t.mem p) :
    t'.RecordsShow ps es :=
  h.mono fun p hp r _ hr he => ⟨r, (hmem p hp).trans hr, he⟩

theorem RecordsShow.exists_last (h : t.RecordsShow (ps ++ [p]) (es ++ [e])) :
    t.RecordsShow ps es ∧ ∃ r, t.mem p = some r ∧ Shows r e :=
  forall₂_concat_iff.mp h

/-- The search in `mktype` finds an entry of the type and device, or the
last record. -/
theorem findLast_eq (h : t.RecordsShow ps es) : ∀ {fuel p s : Nat}, Chain t.next s ps NIL →
    NIL ∉ ps → ps.length < fuel → t.findLast tnum deviceid fuel p s =
      if es.any fun e => e.tnum = tnum && e.device = deviceid then
        .error (.exit (.duplicateDevice deviceid tnum))
      else .ok (ps.getLast?.getD p) := by
  induction h with
  | nil =>
    intro fuel p s hchain _ hfuel
    obtain ⟨fuel, rfl⟩ := Nat.exists_eq_succ_of_ne_zero (Nat.ne_of_gt hfuel)
    rw [findLast, if_pos (chain_nil.mp hchain)]
    rfl
  | @cons q e ps es hq _ ih =>
    intro fuel p s hchain hnil hfuel
    obtain ⟨fuel, rfl⟩ :=
      Nat.exists_eq_succ_of_ne_zero (Nat.ne_of_gt (Nat.lt_of_le_of_lt (Nat.zero_le _) hfuel))
    obtain ⟨rfl, hrest⟩ := hchain
    obtain ⟨r, hr, he⟩ := hq
    have hs : s ≠ NIL := fun hs => hnil (hs ▸ mem_cons_self)
    rw [next_of_mem hr] at hrest
    rw [findLast, if_neg hs, deref_of_mem hr, ok_bind, he.tnum, he.device, any_cons,
      getLast?_cons, ih hrest (fun hm => hnil (mem_cons_of_mem _ hm))
        (Nat.lt_of_succ_lt_succ hfuel)]
    by_cases hdup : e.tnum = tnum ∧ e.device = deviceid
    · rw [if_pos hdup, if_pos (by simp [hdup.1, hdup.2])]
    · rw [if_neg hdup]
      have hfalse : (decide (e.tnum = tnum) && decide (e.device = deviceid)) = false := by
        simpa using hdup
      rw [hfalse, Bool.false_or]
      rfl

/-- The new record is linked in after the last one. -/
theorem link_eq (hchain : Chain t.next t.ftypes ps NIL) (hnil : NIL ∉ ps)
    (hrec : t.RecordsShow ps es) (s : Nat) : ∃ t', t.link (ps.getLast?.getD NIL) s = .ok t' ∧
      Chain t'.next t'.ftypes ps s ∧ t'.RecordsShow ps es ∧ (∀ p ∉ ps, t'.mem p = t.mem p) ∧
      t'.currtype = t.currtype ∧ t'.mallocs = t.mallocs := by
  rcases eq_nil_or_concat ps with rfl | ⟨pre, p, rfl⟩
  · -- The first record becomes the head of the list.
    refine ⟨{ t with ftypes := s }, ?_, rfl, hrec.of_mem_eq fun _ _ => rfl,
      fun _ _ => rfl, rfl, rfl⟩
    rw [link, if_neg (not_not_intro (chain_nil.mp hchain))]
  · rw [concat_eq_append] at *
    have hp : p ∉ pre := fun hp =>
      (nodup_append.mp (hchain.nodup hnil)).2.2 p hp p mem_cons_self rfl
    have hfirst : t.ftypes ≠ NIL := fun hz =>
      hnil (hz ▸ hchain.mem_of_ne_nil (append_ne_nil_of_right_ne_nil _ (cons_ne_nil _ _)))
    -- Any other is stored to `next` of the last one, where `p` of the search has stopped.
    obtain ⟨r, hr⟩ : ∃ r, t.mem p = some r := by
      obtain ⟨es', e, rfl, -, r, hr, -⟩ := exists_concat_of_forall₂ hrec.flip
      exact ⟨r, hr⟩
    refine ⟨t.set p { r with next := s }, ?_, ?_, ?_, fun q hq => ?_, rfl, rfl⟩
    · rw [link, if_pos hfirst, getLast?_concat, Option.getD_some, deref_of_mem hr]
      rfl
    · rw [next_set]
      exact hchain.relink hp
    · refine hrec.mono fun q _ r' e hr' he => ?_
      by_cases hq : q = p
      · subst hq
        cases hr.symm.trans hr'
        exact ⟨_, mem_set_self, { he with }⟩
      · exact ⟨r', (mem_set_of_ne hq).trans hr', he⟩
    · refine mem_set_of_ne fun hqp => hq ?_
      rw [hqp]
      exact mem_append_right _ mem_cons_self

/-- **One call of `mktype`.** A second entry for a type and device is
refused. Any other is made from the memory that `malloc` returns. -/
theorem Built.mktype_eq (h : Built M t es) (tnum deviceid : Nat) :
    (es.any (fun e => e.tnum = tnum && e.device = deviceid) = true ∧
      t.mktype M tnum deviceid = .error (.exit (.duplicateDevice deviceid tnum))) ∨
    (es.any (fun e => e.tnum = tnum && e.device = deviceid) = false ∧
      ∃ t', t.mktype M tnum deviceid = .ok t' ∧ Extended M t' es tnum deviceid) := by
  have hnil := NIL_notMem_nodes M es.length
  have hfind := @findLast_eq t es _ tnum deviceid h.records
    (t.mallocs + 1) NIL t.ftypes h.chain hnil
    (by rw [length_nodes, h.mallocs]; exact Nat.lt_succ_self _)
  cases hdup : es.any fun e => e.tnum = tnum && e.device = deviceid with
  | true =>
    refine Or.inl ⟨rfl, ?_⟩
    rw [mktype, hfind, if_pos hdup]
    rfl
  | false =>
    refine Or.inr ⟨rfl, ?_⟩
    rw [hdup, if_neg Bool.false_ne_true] at hfind
    -- The new record is none of the list, so the list stays while it is made.
    have hnew := addr_notMem_nodes M es.length
    have hother : ∀ q ∈ M.nodes es.length, q ≠ M.addr es.length := fun q hq heq => hnew (heq ▸ hq)
    have hmem1 : ∀ q ∈ M.nodes es.length, (t.malloc M).mem q = t.mem q := fun q hq => by
      rw [← h.mallocs] at hother
      exact mem_set_of_ne (hother q (h.mallocs ▸ hq))
    have hchain1 : Chain (t.malloc M).next t.ftypes (M.nodes es.length) NIL :=
      h.chain.congr fun q hq => by rw [next, hmem1 q hq, next]
    obtain ⟨t2, hlink, hchain2, hrec2, hmem2, hcurr2, hcount2⟩ :=
      @link_eq (t.malloc M) es _ hchain1 hnil (h.records.of_mem_eq hmem1) (M.addr es.length)
    have hlast2 : t2.mem (M.addr es.length) = some (M.content es.length) := by
      rw [hmem2 _ hnew, ← h.mallocs]
      exact mem_set_self
    refine ⟨t2.set (M.addr es.length) ((M.content es.length).initattr tnum deviceid), ?_, ?_⟩
    · rw [mktype, hfind]
      simp only [ok_bind, h.mallocs, hlink, deref_of_mem hlast2]
      rfl
    · refine ⟨?_, ?_, ?_, mem_set_self, ?_⟩
      · exact hcount2.trans (congrArg (· + 1) h.mallocs)
      · rw [nodes_succ, chain_concat, next_set, update_self]
        exact ⟨hchain2.update_of_notMem hnew, rfl⟩
      · exact hrec2.of_mem_eq fun q hq => mem_set_of_ne (hother q hq)
      · exact hcurr2.trans (congrArg M.addr h.mallocs)

/-- **The new record.** With it the list is right exactly when the memory
was clean. -/
theorem Extended.isTypeList_iff (h : Extended M t es tnum deviceid) :
    t.IsTypeList (es ++ [Config.initattr tnum deviceid]) ↔ Clean (M.content es.length) := by
  constructor
  · rintro ⟨ps, hchain, -, hrec⟩
    -- The nodes are followed from the same head, so they are the ones that were made.
    have hlen : (M.nodes (es.length + 1)).length = ps.length := by
      rw [length_nodes, hrec.length_eq, length_append]
      rfl
    obtain ⟨rfl, hnext⟩ := h.chain.eq_of_length hchain hlen
    rw [nodes_succ] at hrec
    obtain ⟨-, r, hr, hshows⟩ := RecordsShow.exists_last hrec
    cases h.last.symm.trans hr
    exact ⟨hnext, shows_initattr_iff.mp hshows⟩
  · rintro ⟨hnext, hzero⟩
    refine ⟨M.nodes (es.length + 1), hnext ▸ h.chain, NIL_notMem_nodes M _, ?_⟩
    rw [nodes_succ]
    exact forall₂_concat h.records ⟨_, h.last, shows_initattr_iff.mpr hzero⟩

theorem Extended.built (h : Extended M t es tnum deviceid) (hclean : Clean (M.content es.length)) :
    Built M t (es ++ [Config.initattr tnum deviceid]) := by
  have hlen : (es ++ [Config.initattr tnum deviceid]).length = es.length + 1 := length_append
  refine ⟨h.mallocs.trans hlen.symm, ?_, ?_, fun _ => ?_⟩
  · rw [hlen, ← hclean.1]
    exact h.chain
  · rw [hlen, nodes_succ]
    exact forall₂_concat h.records ⟨_, h.last, shows_initattr_iff.mpr hclean.2⟩
  · rw [hlen, h.currtype, Nat.add_sub_cancel]

/-- **One call of `newattr`.** The last record is set like the last
entry. -/
theorem Built.newattr (h : Built M t (es ++ [e])) (ha : Sets a e e') :
    ∃ t', t.newattr a = .ok t' ∧ Built M t' (es ++ [e']) := by
  have hlen : ∀ e : DevEnt, (es ++ [e]).length = es.length + 1 := fun _ => length_append
  have hcurr : t.currtype = M.addr es.length := by
    rw [h.currtype (append_ne_nil_of_right_ne_nil _ (cons_ne_nil _ _)), hlen,
      Nat.add_sub_cancel]
  have hrec := h.records
  have hchain := h.chain
  rw [hlen, nodes_succ] at hrec hchain
  obtain ⟨hrec, r, hr, hshows⟩ := RecordsShow.exists_last hrec
  have hnew := addr_notMem_nodes M es.length
  refine ⟨t.set (M.addr es.length) (r.newattr a), ?_, ?_, ?_, ?_, fun _ => ?_⟩
  · rw [TypeList.newattr, hcurr, deref_of_mem hr]
    rfl
  · rw [hlen, ← hlen e]
    exact h.mallocs
  · rw [hlen, nodes_succ, next_set]
    -- No attribute touches the link.
    have hsame : (r.newattr a).next = t.next (M.addr es.length) := by
      rw [next_of_mem hr]
      cases a <;> rfl
    rw [hsame, update_eq_self]
    exact hchain
  · rw [hlen, nodes_succ]
    refine forall₂_concat (hrec.of_mem_eq fun q hq => mem_set_of_ne fun hq' => hnew (hq' ▸ hq)) ?_
    exact ⟨_, mem_set_self, hshows.newattr ha⟩
  · rw [hlen, Nat.add_sub_cancel]
    exact hcurr

end Steps

end TypeList

/-! ### Declarations -/

/-- The attributes may be given one after the other, from the end. -/
theorem Values.override_concat (v : Values) (l : List Attr) (a : Attr) :
    v.override (l ++ [a]) = (v.override l).override [a] := by
  induction l generalizing v with
  | nil => rfl
  | cons b l ih => rw [cons_append, override_cons, ih, override_cons v b l]

namespace TypeDecl

/-- The entry that is declared: the routine that the last attribute gives,
or else "ioerr". -/
def entry (d : TypeDecl) : DevEnt :=
  { initattr d.tnum d.device with
    csr := (Values.unspecified.override d.attrs).csr
    irq := (Values.unspecified.override d.attrs).irq
    routine := (Values.unspecified.override d.attrs).routine }

/-- The type and the device. -/
def key (d : TypeDecl) : Nat × Nat := (d.tnum, d.device)

theorem sets_entry (tnum deviceid : Nat) (l : List Attr) (a : Attr) :
    Sets a (entry ⟨tnum, deviceid, l⟩) (entry ⟨tnum, deviceid, l ++ [a]⟩) :=
  ⟨rfl, rfl, rfl, rfl, Values.override_concat Values.unspecified l a⟩

theorem any_entry_eq_false {ds : List TypeDecl} {d : TypeDecl} (h : d.key ∉ ds.map key) :
    ((ds.map entry).any fun e => e.tnum = d.tnum && e.device = d.device) = false := by
  rw [any_eq_false]
  refine forall_mem_map.mpr fun d' hd' hsame => h (mem_map.mpr ⟨d', hd', ?_⟩)
  rw [Bool.and_eq_true, decide_eq_true_eq, decide_eq_true_eq] at hsame
  exact Prod.ext hsame.1 hsame.2

end TypeDecl

namespace TypeList

section Declarations
variable {M : Mallocs} {t : TypeList} {es : List DevEnt} {ds : List TypeDecl} {d : TypeDecl}

theorem Built.newattrs {tnum deviceid : Nat} {l : List Attr} (attrs : List Attr)
    (h : Built M t (es ++ [TypeDecl.entry ⟨tnum, deviceid, l⟩])) :
    ∃ t', attrs.foldlM TypeList.newattr t = .ok t' ∧
      Built M t' (es ++ [TypeDecl.entry ⟨tnum, deviceid, l ++ attrs⟩]) := by
  induction attrs generalizing t l with
  | nil => exact ⟨t, rfl, by rwa [append_nil]⟩
  | cons a attrs ih =>
    obtain ⟨t1, hrun, h1⟩ := h.newattr (TypeDecl.sets_entry tnum deviceid l a)
    obtain ⟨t2, hruns, h2⟩ := ih h1
    refine ⟨t2, ?_, by rwa [append_cons l a attrs]⟩
    rw [foldlM_cons, hrun, ok_bind, hruns]

/-- A declaration adds its entry, in clean memory. -/
theorem Built.declare (h : Built M t es)
    (hnew : es.any (fun e => e.tnum = d.tnum && e.device = d.device) = false)
    (hclean : Clean (M.content es.length)) :
    ∃ t', t.declare M d = .ok t' ∧ Built M t' (es ++ [d.entry]) := by
  rcases h.mktype_eq d.tnum d.device with ⟨hdup, -⟩ | ⟨-, t1, hrun, hext⟩
  · cases hdup.symm.trans hnew
  · obtain ⟨t2, hruns, h2⟩ := @Built.newattrs M t1 es d.tnum d.device [] d.attrs (hext.built hclean)
    refine ⟨t2, ?_, h2⟩
    rw [TypeList.declare, hrun, ok_bind, hruns]

/-- All declarations, in clean memory. -/
theorem built_of_clean (hnodup : (ds.map TypeDecl.key).Nodup)
    (hclean : ∀ k < ds.length, Clean (M.content k)) :
    ∃ t, ds.foldlM (TypeList.declare M) {} = .ok t ∧ Built M t (ds.map TypeDecl.entry) := by
  induction ds using List.reverseRecOn with
  | nil => exact ⟨{}, rfl, built_nil M⟩
  | append_singleton ds d ih =>
    rw [map_append, nodup_append] at hnodup
    have hlen : (ds ++ [d]).length = ds.length + 1 := length_append
    obtain ⟨t, hrun, h⟩ := ih hnodup.1 fun k hk => hclean k (by omega)
    have hkey : d.key ∉ ds.map TypeDecl.key := fun hd =>
      hnodup.2.2 _ hd _ mem_cons_self rfl
    obtain ⟨t', hrun', h'⟩ := h.declare (TypeDecl.any_entry_eq_false hkey)
      (by rw [length_map]; exact hclean _ (by omega))
    refine ⟨t', ?_, by rwa [map_append]⟩
    rw [foldlM_append, hrun, ok_bind, foldlM_cons, hrun']
    rfl

end Declarations

end TypeList

/-- After the declarations `ds`, the call of `mktype` for `d` returns, and
then the type list has exactly the entries of `ds`, and one for `d` that no
attribute has set. -/
def TypesRight (M : Mallocs) (ds : List TypeDecl) (d : TypeDecl) : Prop :=
  ∃ t t', ds.foldlM (TypeList.declare M) {} = .ok t ∧ t.mktype M d.tnum d.device = .ok t' ∧
    t'.IsTypeList (ds.map TypeDecl.entry ++ [initattr d.tnum d.device])

/-- One call, after declarations in clean memory. -/
theorem typesRight_iff {M : Mallocs} {ds : List TypeDecl} {d : TypeDecl}
    (hnodup : ((ds ++ [d]).map TypeDecl.key).Nodup)
    (hclean : ∀ k < ds.length, Clean (M.content k)) :
    TypesRight M ds d ↔ Clean (M.content ds.length) := by
  rw [map_append, nodup_append] at hnodup
  have hkey : d.key ∉ ds.map TypeDecl.key := fun hd => hnodup.2.2 _ hd _ mem_cons_self rfl
  obtain ⟨t, hrun, h⟩ := TypeList.built_of_clean hnodup.1 hclean
  rcases h.mktype_eq d.tnum d.device with ⟨hdup, -⟩ | ⟨-, t', hrun', hext⟩
  · cases hdup.symm.trans (TypeDecl.any_entry_eq_false hkey)
  · rw [← length_map TypeDecl.entry, ← hext.isTypeList_iff]
    constructor
    · rintro ⟨t1, t1', hrun1, hrun1', hlist⟩
      cases hrun.symm.trans hrun1
      cases hrun'.symm.trans hrun1'
      exact hlist
    · exact fun hlist => ⟨t, t', hrun, hrun', hlist⟩

/-- **The type list.** It is right after each `mktype` that is not refused
as a duplicate exactly when each of these calls got clean memory. -/
theorem types_right_iff (M : Mallocs) (ds : List TypeDecl) :
    (∀ pre d, pre ++ [d] <+: ds → ((pre ++ [d]).map TypeDecl.key).Nodup → TypesRight M pre d) ↔
      ∀ k < ds.length, ((ds.take (k + 1)).map TypeDecl.key).Nodup → Clean (M.content k) := by
  constructor
  · intro hright k
    -- The calls before have got clean memory, so the state of this one is known.
    induction k using Nat.strong_induction_on with
    | _ k ih =>
      intro hk hnodup
      have hsplit : ds.take k ++ [ds[k]] = ds.take (k + 1) := take_concat_get' ..
      have hlen : (ds.take k).length = k := length_take_of_le (Nat.le_of_lt hk)
      have hclean : ∀ j < (ds.take k).length, Clean (M.content j) := by
        intro j hj
        refine ih j (by omega) (by omega) (hnodup.sublist (List.Sublist.map _ ?_))
        exact (take_prefix_take_left (by omega)).sublist
      have hcall := hright (ds.take k) ds[k] (hsplit ▸ take_prefix _ _) (hsplit ▸ hnodup)
      have := (typesRight_iff (hsplit ▸ hnodup) hclean).mp hcall
      rwa [hlen] at this
  · intro hclean pre d hpre hnodup
    have hlen := hpre.length_le
    rw [length_append, length_singleton] at hlen
    have hall : ∀ k ≤ pre.length, Clean (M.content k) := by
      intro k hk
      refine hclean k (by omega) (hnodup.sublist (List.Sublist.map _ ?_))
      refine (prefix_of_prefix_length_le (List.take_prefix _ _) hpre ?_).sublist
      rw [length_append, length_take]
      exact Nat.le_trans (Nat.min_le_left _ _) (Nat.succ_le_succ hk)
    exact (typesRight_iff hnodup fun k hk => hall k (Nat.le_of_lt hk)).mpr (hall _ (Nat.le_refl _))

/-! ### The parser's model -/

section Simulation
variable {M : Mallocs} {t : TypeList} {c c' : Conf} {first cur : List Char} {types : List TypeEntry}
  {tnum : Nat} {a : Attr}

/-- `mktype` on records is `mktype` on entries, in clean memory. -/
theorem mktype_simulates (h : t.Built M c.ftypes) (hcur : c.currtname = some tnum)
    (hclean : ∀ k, Clean (M.content k)) {deviceid : Nat} (hrun : c.mktype deviceid = .ok c') :
    ∃ t' : TypeList, t.mktype M tnum deviceid = .ok t' ∧ t'.Built M c'.ftypes := by
  rw [Conf.mktype, hcur] at hrun
  simp only at hrun
  split at hrun
  · cases hrun
  next hnew =>
    cases hrun
    rcases h.mktype_eq tnum deviceid with ⟨hdup, -⟩ | ⟨-, t', hrun', hext⟩
    · exact absurd hdup hnew
    · exact ⟨t', hrun', hext.built (hclean _)⟩

theorem newattr_simulates (h : t.Built M c.ftypes) (hdevs : c.devs = []) {tok : Tok} {val : Int}
    (hset : ∀ n e e', c.attrName val = .ok n → Conf.setAttr tok val n e = .ok e' → Sets a e e')
    (hrun : c.newattr tok val = .ok c') :
    ∃ t' : TypeList, t.newattr a = .ok t' ∧ t'.Built M c'.ftypes := by
  obtain ⟨n, hn, hrun⟩ := bind_eq_ok hrun
  rw [hdevs] at hrun
  rcases eq_nil_or_concat c.ftypes with hnil | ⟨es, e, hes⟩
  · rw [hnil] at hrun
    cases hrun
  · rw [concat_eq_append] at hes
    rw [hes, getLast?_concat, dropLast_concat] at hrun
    obtain ⟨e', he', hrun⟩ := bind_eq_ok hrun
    cases hrun
    rw [hes] at h
    exact h.newattr (hset n e e' hn he')

theorem attrList_simulates {attrs : List Attr} {ty : TypeEntry}
    (hp : Parsed first c (types ++ [ty]) []) (h : t.Built M c.ftypes)
    (hrun : c.attrList attrs = .ok c') :
    ∃ t' : TypeList, attrs.foldlM TypeList.newattr t = .ok t' ∧ t'.Built M c'.ftypes := by
  induction attrs generalizing c t ty with
  | nil =>
    cases hrun
    exact ⟨t, rfl, h⟩
  | cons a attrs ih =>
    obtain ⟨c2, ha, hrun⟩ := bind_eq_ok hrun
    obtain ⟨_, _, _, _, he⟩ := exists_concat_of_forall₂ hp.types
    obtain ⟨c1, tok, val, hp1, hext1, hnew, hset, hftypes⟩ :=
      hp.attr_eq_newattr (Parsed.symtab_ne_nil he.tname) ha
    rw [← hftypes] at h
    obtain ⟨t2, hrun2, h2⟩ :=
      newattr_simulates h (List.forall₂_nil_right_iff.mp hp1.devs) hset hnew
    obtain ⟨t3, hrun3, h3⟩ := ih (hp1.newattr_type hset hnew).1 h2 hrun
    refine ⟨t3, ?_, h3⟩
    rw [foldlM_cons, hrun2, ok_bind, hrun3]

theorem typeDevs_simulate {ds : List TypeDev} (hp : Parsed first c types [])
    (hcur : c.currtname = some tnum) (htnum : c.names[tnum]? = some cur) (h : t.Built M c.ftypes)
    (hclean : ∀ k, Clean (M.content k)) (hrun : ds.foldlM Conf.typeDev c = .ok c') :
    ∃ (decls : List TypeDecl) (t' : TypeList), decls.map TypeDecl.attrs = ds.map TypeDev.attrs ∧
      decls.foldlM (TypeList.declare M) t = .ok t' ∧ t'.Built M c'.ftypes := by
  induction ds generalizing c t types with
  | nil =>
    cases hrun
    exact ⟨[], t, rfl, rfl, h⟩
  | cons d ds ih =>
    obtain ⟨c3, hd, hrun⟩ := bind_eq_ok hrun
    obtain ⟨hp3, hext3⟩ := hp.typeDev hcur htnum hd
    obtain ⟨⟨deviceid, c1⟩, hlookup, hd⟩ := bind_eq_ok hd
    obtain ⟨c2, hmk, hattrs⟩ := bind_eq_ok hd
    obtain ⟨hp1, hext1, hdev⟩ :=
      hp.lookup (fun hnil => absurd hnil (Parsed.symtab_ne_nil htnum)) hlookup
    have hcur1 : c1.currtname = some tnum := hext1.currtname.trans hcur
    have hp2 := hp1.mktype hcur1 (getElem?_mono hext1.names htnum) hdev hmk
    rw [← Conf.lookup_ftypes hlookup] at h
    obtain ⟨t2, hrun2, h2⟩ := mktype_simulates h hcur1 hclean hmk
    obtain ⟨t3, hrun3, h3⟩ := attrList_simulates hp2.1 h2 hattrs
    obtain ⟨decls, t4, hattrs4, hrun4, h4⟩ :=
      ih hp3 (hext3.currtname.trans hcur) (getElem?_mono hext3.names htnum) h3 hrun
    refine ⟨⟨tnum, deviceid, d.attrs⟩ :: decls, t4, congrArg (d.attrs :: ·) hattrs4, ?_, h4⟩
    rw [foldlM_cons, TypeList.declare, hrun2, ok_bind, hrun3, ok_bind, hrun4]

theorem ftypes_simulate {ts : List Ftype} (hp : Parsed first c types [])
    (hfirst : c.symtab = [] → ∀ ft ∈ ts.head?, ft.tname.name = first) (h : t.Built M c.ftypes)
    (hclean : ∀ k, Clean (M.content k)) (hrun : ts.foldlM Conf.ftype c = .ok c') :
    ∃ (decls : List TypeDecl) (t' : TypeList),
      decls.map TypeDecl.attrs = (ts.flatMap Ftype.devs).map TypeDev.attrs ∧
      decls.foldlM (TypeList.declare M) t = .ok t' ∧ t'.Built M c'.ftypes := by
  induction ts generalizing c t types with
  | nil =>
    cases hrun
    exact ⟨[], t, rfl, rfl, h⟩
  | cons ft ts ih =>
    obtain ⟨c2, hft, hrun⟩ := bind_eq_ok hrun
    obtain ⟨hp2, hne2⟩ := hp.ftype (fun hnil => hfirst hnil ft rfl) hft
    obtain ⟨⟨symid, c1⟩, hlookup, hft⟩ := bind_eq_ok hft
    obtain ⟨tnum, hck, hft⟩ := bind_eq_ok hft
    obtain ⟨hp1, -, hsym⟩ := hp.lookup (fun hnil => hfirst hnil ft rfl) hlookup
    -- `cktname` accepts the type and returns its symbol.
    rw [Conf.cktname] at hck
    split at hck
    · cases hck
    cases hck
    rw [← Conf.lookup_ftypes hlookup] at h
    obtain ⟨decls1, t1, hattrs1, hrun1, h1⟩ :=
      @typeDevs_simulate M t { c1 with currtname := some symid } c2
      first _ types symid _ { hp1 with } rfl hsym h hclean hft
    obtain ⟨decls2, t2, hattrs2, hrun2, h2⟩ := ih hp2 (fun hnil => absurd hnil hne2) h1 hrun
    refine ⟨decls1 ++ decls2, t2, ?_, ?_, h2⟩
    · rw [map_append, hattrs1, hattrs2, flatMap_cons, map_append]
    · rw [foldlM_append, hrun1, ok_bind, hrun2]

/-- **Entries and records.** In clean memory, the type declarations of an
accepted file leave a list of records that shows the entries of the
parser's model. -/
theorem records_of_ftypes {ts : List Ftype} (hclean : ∀ k, Clean (M.content k))
    (hrun : ts.foldlM Conf.ftype {} = .ok c) :
    ∃ (decls : List TypeDecl) (t : TypeList),
      decls.map TypeDecl.attrs = (ts.flatMap Ftype.devs).map TypeDev.attrs ∧
      decls.foldlM (TypeList.declare M) {} = .ok t ∧ t.IsTypeList c.ftypes := by
  have hfirst : ∀ ft ∈ ts.head?, ft.tname.name =
    ((ts.head?.map fun ft => ft.tname.name).getD []) := by
    intro ft hft
    rw [Option.mem_def.mp hft]
    rfl
  obtain ⟨decls, t, hattrs, hruns, h⟩ := ftypes_simulate (Parsed.init _) (fun _ => hfirst)
    (TypeList.built_nil M) hclean hrun
  exact ⟨decls, t, hattrs, hruns, h.isTypeList⟩

end Simulation

/-! ### Memory that is not clean -/

/-- Memory full of the letter Z, and of pointers to nowhere. -/
def usedMemory : Mallocs where
  addr k := 8 * (k + 1)
  content _ := ⟨none, 0, 0, 0, 0, fun _ _ => 'Z', 0, 4⟩
  nonnull k := Nat.mul_ne_zero (Nat.succ_ne_zero 7) (Nat.succ_ne_zero k)
  injective _ _ h := Nat.succ.inj (Nat.eq_of_mul_eq_mul_left (Nat.succ_pos 7) h)

/-- The list of one type goes on after its record, no routine of the
record is a string, and the next `mktype` follows the pointer. -/
theorem types_wrong_usedMemory :
    ¬TypesRight usedMemory [] ⟨0, 1, []⟩ ∧
    ∃ t, TypeList.mktype usedMemory {} 0 1 = .ok t ∧ t.ftypes = 8 ∧ t.next 8 = 4 ∧
      (∀ r ∈ t.mem 8, ∀ rt, (r.routine rt).string = none) ∧
      t.mktype usedMemory 0 2 = .error (.fault .outOfBounds) := by
  refine ⟨fun hright => ?_, _, rfl, rfl, rfl, ?_, rfl⟩
  · have hiff := @typesRight_iff usedMemory [] ⟨0, 1, []⟩ (nodup_singleton _)
      fun k hk => absurd hk (Nat.not_lt_zero k)
    exact absurd (hiff.mp hright).1 (by decide)
  · intro r hr rt
    cases hr
    rfl

/-- Memory full of zeros. -/
def zeroedMemory : Mallocs :=
  { usedMemory with content := fun _ => ⟨none, 0, 0, 0, 0, fun _ _ => NUL, 0, NIL⟩ }

/-- `uart: on HARDWARE -csr 0x10000000 -irq 10 -i uartInit -irq 11`. -/
def uartOnHardware : Ftype where
  tname := uart
  devs := [⟨hardware, [.csr 0x10000000, .irq 10, .routine .init uartInit, .irq 11]⟩]
  ne := nofun

/-- `tty: on SOFTWARE -i ttyInit -g ttyGetc  on uart -csr 4`. -/
def ttyOnSoftware : Ftype where
  tname := tty
  devs := [⟨⟨"SOFTWARE".toList, by decide⟩, [.routine .init ttyInit,
    .routine .getc ⟨"ttyGetc".toList, by decide⟩]⟩, ⟨uart, [.csr 4]⟩]
  ne := nofun

/-- Two types, three records: each shows what its attributes have set. -/
theorem records_of_ftypes_zeroed : ∃ (c : Conf) (decls : List TypeDecl) (t : TypeList),
    [uartOnHardware, ttyOnSoftware].foldlM Conf.ftype {} = .ok c ∧
    c.ftypes.map (fun e => (e.csr, e.irq)) = [(0x10000000, 11), (0, 0), (4, 0)] ∧
    (decls.map TypeDecl.attrs).map List.length = [4, 2, 1] ∧
    decls.foldlM (TypeList.declare zeroedMemory) {} = .ok t ∧ t.IsTypeList c.ftypes := by
  obtain ⟨c, hc, hvalues⟩ : ∃ c, [uartOnHardware, ttyOnSoftware].foldlM Conf.ftype {} = .ok c ∧
      c.ftypes.map (fun e => (e.csr, e.irq)) = [(0x10000000, 11), (0, 0), (4, 0)] := ⟨_, rfl, rfl⟩
  obtain ⟨decls, t, hattrs, h⟩ :=
    records_of_ftypes (M := zeroedMemory) (fun _ => ⟨rfl, fun _ => rfl⟩) hc
  exact ⟨c, decls, t, hc, hvalues, hattrs ▸ rfl, h⟩

end Xinu.Config
