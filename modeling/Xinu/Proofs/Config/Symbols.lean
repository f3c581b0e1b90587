import Xinu.Lib.Interning
import Xinu.Proofs.Config.Parse
import Xinu.System.Symtab

/-!
# `Xinu.Proofs.Config.Symbols`: `lookup` interns identifiers

After any calls of `lookup` the table holds the copies that it has made,
each once and in the order of first appearance, and a call returns the
index of the copy (`lookups_eq`). `interns_iff` says when this is what
interning should be: the copies are the first `CONFMAXNM - 1` characters,
and there are not more of them than `symtab` has room for. Nothing in
`lookup` tests the second.
-/

namespace Xinu.Config

open Lib List BitVec

/-! ### The copy -/

section Copy
variable {str : List Char}

/-- The length is right as an `int`, or at least it is seen that the
string is too long. -/
def LengthFits (str : List Char) : Prop :=
  str.length < CONFMAXNM - 1 ∨ (CONFMAXNM - 1 : Int) ≤ intLength str

theorem intLength_of_lt (h : str.length < 2 ^ 31) : intLength str = str.length := by
  rw [intLength, toInt_eq_toNat_of_lt, toNat_ofNat, Nat.mod_eq_of_lt (by omega)]
  rw [toNat_ofNat, Nat.mod_eq_of_lt (by omega)]
  omega

theorem lengthFits_of_lt (h : str.length < 2 ^ 31) : LengthFits str := by
  unfold LengthFits
  rw [intLength_of_lt h]
  omega

/-- The copy is the expected one exactly when the length is. -/
theorem truncated_eq_iff : truncated str = .ok (str.take (CONFMAXNM - 1)) ↔ LengthFits str := by
  have hmax : CONFMAXNM = 20 := rfl
  unfold truncated LengthFits
  by_cases hlong : intLength str ≥ CONFMAXNM
  · rw [if_pos hlong, if_neg (by omega)]
    exact iff_of_true rfl (Or.inr (by omega))
  · rw [if_neg hlong]
    by_cases hneg : intLength str < 0
    · -- Only a length of 2 ^ 31 or more is negative as an `int`.
      rw [if_pos hneg]
      refine iff_of_false (fun h => by cases h) (not_or.mpr ⟨fun hshort => ?_, by omega⟩)
      rw [intLength_of_lt (by omega)] at hneg
      omega
    · rw [if_neg hneg, Except.ok.injEq]
      constructor
      · intro heq
        have hlen := congrArg List.length heq
        rw [length_take, length_take] at hlen
        omega
      · rintro (hshort | hlen)
        · rw [intLength_of_lt (by omega), Int.toNat_natCast, take_length,
            take_of_length_le (by omega)]
        · have hexact : (intLength str).toNat = CONFMAXNM - 1 := by omega
          rw [hexact]

end Copy

/-! ### The table -/

section Table
variable {symtab symtab' : List SymEnt} {str n : List Char} {pre ns : List (List Char)}
  {ids : List Ident} {is : List Nat}

theorem findIdx?_name (symtab : List SymEnt) (n : List Char) :
    symtab.findIdx? (fun e => e.name = n) =
      if n ∈ symtab.map SymEnt.name then some ((symtab.map SymEnt.name).idxOf n) else none := by
  have hidx : (symtab.map SymEnt.name).idxOf n = symtab.findIdx fun e => e.name = n := by
    rw [List.idxOf, findIdx_map]
    exact congrArg (symtab.findIdx ·) (funext fun e => beq_eq_decide e.name n)
  split
  next hmem =>
    rw [findIdx?_eq_some_iff_findIdx_eq, hidx]
    refine ⟨?_, rfl⟩
    rw [← hidx, ← length_map SymEnt.name]
    exact idxOf_lt_length_iff.mpr hmem
  next hmem =>
    refine findIdx?_eq_none_iff.mpr fun e he => decide_eq_false fun heq => hmem ?_
    exact heq ▸ mem_map_of_mem he

theorem names_nil : [].map SymEnt.name = ([] : List (List Char)).eraseDups := rfl

/-- **One call.** After the copies `pre`, a call returns the number of its
copy `n` and keeps the order of first appearance, or there is no room. -/
theorem lookup_step (hpre : symtab.map SymEnt.name = pre.eraseDups)
    (hroom : pre.eraseDups.length ≤ Conf.NSYM) (hn : truncated str = .ok n) :
    (Conf.NSYM < (pre ++ [n]).eraseDups.length ∧ lookup symtab str = .error .outOfBounds) ∨
    ((pre ++ [n]).eraseDups.length ≤ Conf.NSYM ∧ ∃ symtab',
      lookup symtab str = .ok ((pre ++ [n]).eraseDups.idxOf n, symtab') ∧
      symtab'.map SymEnt.name = (pre ++ [n]).eraseDups) := by
  have hlen : symtab.length = pre.eraseDups.length := by
    rw [← hpre, length_map]
  simp only [lookup, hn, ok_bind, findIdx?_name, hpre, mem_eraseDups, eraseDups_concat]
  by_cases hmem : n ∈ pre
  · simp only [if_pos hmem]
    exact Or.inr ⟨hroom, symtab, rfl, hpre⟩
  · simp only [if_neg hmem, length_append, length_singleton]
    by_cases hlt : symtab.length < Conf.NSYM
    · refine Or.inr ⟨by omega, symtab ++ [⟨n, 0⟩], ?_, ?_⟩
      · rw [if_pos hlt, idxOf_append_of_notMem (mt mem_eraseDups.mp hmem),
          idxOf_cons_self, hlen]
        rfl
      · rw [map_append, hpre]
        rfl
    · exact Or.inl ⟨by omega, if_neg hlt⟩

/-- Calls with room for all of their copies. -/
theorem lookups_eq (hns : List.Forall₂ (fun id n => truncated (Ident.text id) = .ok n) ids ns) :
    ∀ {symtab : List SymEnt} {pre : List (List Char)}, symtab.map SymEnt.name = pre.eraseDups →
      (pre ++ ns).eraseDups.length ≤ Conf.NSYM →
      ∃ symtab', lookups symtab ids = .ok (ns.map fun n => (pre ++ ns).eraseDups.idxOf n, symtab') ∧
        symtab'.map SymEnt.name = (pre ++ ns).eraseDups := by
  induction hns with
  | nil =>
    intro symtab pre hpre hroom
    rw [append_nil]
    exact ⟨symtab, rfl, hpre⟩
  | @cons id n ids ns hn hns ih =>
    intro symtab pre hpre hroom
    rw [append_cons] at hroom ⊢
    -- What there is room for in the end, there was room for before.
    have hle := (eraseDups_prefix_append (pre ++ [n]) ns).length_le
    have hle' := (eraseDups_prefix_append pre [n]).length_le
    rcases lookup_step hpre (by omega) hn with ⟨hfull, -⟩ | ⟨-, symtab1, hrun, hpre1⟩
    · omega
    · obtain ⟨symtab2, hruns, hpre2⟩ := ih hpre1 hroom
      refine ⟨symtab2, ?_, hpre2⟩
      -- The index was given when `n` came, and later names do not change it.
      have hmem : n ∈ pre ++ [n] := mem_append_right _ mem_cons_self
      simp only [lookups, hrun, hruns, ok_bind, map_cons, idxOf_eraseDups_append hmem]
      rfl

/-- Calls with more copies than there is room for. -/
theorem lookups_full (hns : List.Forall₂ (fun id n => truncated (Ident.text id) = .ok n) ids ns)
    (hpre : symtab.map SymEnt.name = pre.eraseDups) (hroom : pre.eraseDups.length ≤ Conf.NSYM)
    (hfull : Conf.NSYM < (pre ++ ns).eraseDups.length) :
    lookups symtab ids = .error .outOfBounds := by
  induction hns generalizing symtab pre with
  | nil =>
    rw [append_nil] at hfull
    omega
  | @cons id n ids ns hn hns ih =>
    rw [append_cons] at hfull
    rcases lookup_step hpre hroom hn with ⟨-, herr⟩ | ⟨hroom1, symtab1, hrun, hpre1⟩
    · simp only [lookups, herr]
      rfl
    · simp only [lookups, hrun, ok_bind, ih hpre1 hroom1 hfull]
      rfl

/-- Calls that return have made copies and had room for them. -/
theorem lookups_returned (hpre : symtab.map SymEnt.name = pre.eraseDups)
    (hroom : pre.eraseDups.length ≤ Conf.NSYM) (hrun : lookups symtab ids = .ok (is, symtab')) :
    ∃ ns, List.Forall₂ (fun id n => truncated (Ident.text id) = .ok n) ids ns ∧
      (pre ++ ns).eraseDups.length ≤ Conf.NSYM := by
  induction ids generalizing symtab pre is with
  | nil => exact ⟨[], .nil, by rwa [append_nil]⟩
  | cons id ids ih =>
    obtain ⟨⟨i, symtab1⟩, hfirst, hrun⟩ := bind_eq_ok hrun
    obtain ⟨⟨is', symtab2⟩, hrest, hrun⟩ := bind_eq_ok hrun
    cases hrun
    obtain ⟨n, hn, -⟩ := bind_eq_ok hfirst
    rcases lookup_step hpre hroom hn with ⟨-, herr⟩ | ⟨hroom1, symtab1', hok, hpre1⟩
    · cases hfirst.symm.trans herr
    · cases hfirst.symm.trans hok
      obtain ⟨ns, hns, hroom2⟩ := ih hpre1 hroom1 hrest
      exact ⟨n :: ns, .cons hn hns, by rwa [append_cons]⟩

/-- The parser's `lookup` is this one. -/
theorem Conf.lookup_eq (s : Conf) {id : Ident} (h : id.text.length < 2 ^ 31) :
    s.lookup id = ((Config.lookup s.symtab id.text).map
      fun r => (r.1, { s with symtab := r.2 })).mapError fun _ => .tooManySymbols := by
  have hn : truncated id.text = .ok id.name := truncated_eq_iff.mpr (lengthFits_of_lt h)
  simp only [Conf.lookup, Config.lookup, hn, ok_bind]
  cases s.symtab.findIdx? fun e => e.name = id.name with
  | some i => rfl
  | none =>
    by_cases hroom : s.symtab.length < NSYM
    · simp only [if_pos hroom]
      rfl
    · simp only [if_neg hroom]
      rfl

/-! ### Interning -/

/-- The results of `lookup` and the table after it, for a list of
identifiers. -/
structure Interns (ids : List Ident) (is : List Nat) (symtab : List SymEnt) : Prop where
  /-- Two identifiers get the same index when they start alike. -/
  same : ∀ p ∈ ids.zip is, ∀ q ∈ ids.zip is, p.2 = q.2 ↔ p.1.name = q.1.name
  /-- New indices are `0, 1, 2, …`. -/
  order : is.eraseDups = List.range symtab.length
  /-- The entry of an identifier has its first characters as its name. -/
  names : List.Forall₂ (fun id i => symtab[i]?.map SymEnt.name = some (Ident.name id)) ids is

theorem interns_of_names (hnames : symtab.map SymEnt.name = (ids.map Ident.name).eraseDups) :
    Interns ids ((ids.map Ident.name).map fun n => (ids.map Ident.name).eraseDups.idxOf n)
      symtab := by
  have hmem : ∀ id ∈ ids, id.name ∈ (ids.map Ident.name).eraseDups := fun id hid =>
    mem_eraseDups.mpr (mem_map_of_mem hid)
  refine ⟨?_, ?_, ?_⟩
  · rw [map_map, ← map_prod_left_eq_zip]
    refine forall_mem_map.mpr fun id hid => forall_mem_map.mpr fun id' _ => ?_
    exact idxOf_inj (hmem id hid)
  · rw [eraseDups_map_idxOf, ← hnames, length_map]
  · rw [map_map, List.forall₂_map_right_iff, List.forall₂_same]
    intro id hid
    rw [← getElem?_map, hnames]
    exact getElem?_idxOf (hmem id hid)

/-- The copies are the names when the entries have them. -/
theorem eq_names_of_interns (hnames : symtab.map SymEnt.name = ns.eraseDups)
    (hint : Interns ids (ns.map fun n => ns.eraseDups.idxOf n) symtab) :
    ids.map Ident.name = ns := by
  have hentry := List.forall₂_map_right_iff.mp hint.names
  rw [← List.forall₂_eq_eq_eq, List.forall₂_map_left_iff, List.forall₂_iff_get]
  refine ⟨hentry.length_eq, fun i hi hi' => ?_⟩
  have hname := (List.forall₂_iff_get.mp hentry).2 i hi hi'
  rw [← getElem?_map, hnames,
    getElem?_idxOf (mem_eraseDups.mpr (get_mem ns ⟨i, hi'⟩))] at hname
  exact (Option.some.inj hname).symm

/-- **Interning.** `lookup` interns every list of identifiers exactly when
their lengths fit and they have at most as many different names as
`symtab` has entries. -/
theorem interns_iff (ids : List Ident) :
    (∃ is symtab, lookups [] ids = .ok (is, symtab) ∧ Interns ids is symtab) ↔
      (∀ id ∈ ids, LengthFits id.text) ∧ (ids.map Ident.name).eraseDups.length ≤ Conf.NSYM := by
  constructor
  · rintro ⟨is, symtab, hrun, hint⟩
    obtain ⟨ns, hns, hroom⟩ := lookups_returned names_nil (Nat.zero_le _) hrun
    obtain ⟨symtab', hrun', hnames⟩ := lookups_eq hns names_nil hroom
    cases hrun.symm.trans hrun'
    -- The run returns with the copies `ns`. They are the names, so all lengths fit.
    obtain rfl := eq_names_of_interns hnames hint
    refine ⟨fun id hid => ?_, hroom⟩
    exact truncated_eq_iff.mp (List.forall₂_same.mp (List.forall₂_map_right_iff.mp hns) id hid)
  · rintro ⟨hfits, hroom⟩
    have hns : List.Forall₂ (fun id n => truncated (Ident.text id) = .ok n) ids
        (ids.map Ident.name) := by
      rw [List.forall₂_map_right_iff, List.forall₂_same]
      exact fun id hid => truncated_eq_iff.mpr (hfits id hid)
    obtain ⟨symtab, hrun, hnames⟩ := lookups_eq hns names_nil hroom
    exact ⟨_, symtab, hrun, interns_of_names hnames⟩

end Table

/-! ### Too many identifiers -/

/-- Identifiers of three characters, all different. -/
def symIdent (i : Fin 251) : Ident :=
  ⟨['s', Char.ofNat (97 + i / 16), Char.ofNat (97 + i % 16)], by revert i; decide +kernel⟩

/-- The number of such an identifier, from its characters. -/
theorem symIdent_number : ∀ i : Fin 251,
    ((symIdent i).name.drop 1).foldl (fun n c => 16 * n + (c.toNat - 97)) 0 = i.val := by
  decide +kernel

theorem nodup_symIdent : (((List.finRange 251).map symIdent).map Ident.name).Nodup := by
  rw [map_map]
  refine (nodup_finRange 251).map fun i j heq => Fin.ext ?_
  have hname : (symIdent i).name = (symIdent j).name := heq
  rw [← symIdent_number i, hname, symIdent_number]

/-- The entry of the identifier after the first 250 is written past the
end of `symtab`. -/
theorem lookups_overflow :
    lookups [] ((List.finRange 251).map symIdent) = .error .outOfBounds ∧
      ¬ ∃ is symtab, lookups [] ((List.finRange 251).map symIdent) = .ok (is, symtab) ∧
        Interns ((List.finRange 251).map symIdent) is symtab := by
  have hrun : lookups [] ((List.finRange 251).map symIdent) = .error .outOfBounds := by
    refine @lookups_full _ _ (((List.finRange 251).map symIdent).map Ident.name) _ ?_ names_nil
      (Nat.zero_le _) ?_
    · rw [List.forall₂_map_right_iff, List.forall₂_same, forall_mem_map]
      exact fun i _ => truncated_eq_iff.mpr (lengthFits_of_lt (by show 3 < _; decide))
    · rw [nil_append, eraseDups_of_nodup nodup_symIdent, length_map, length_map,
        length_finRange]
      decide
  exact ⟨hrun, fun ⟨_, _, hok, _⟩ => by cases hrun.symm.trans hok⟩

end Xinu.Config
