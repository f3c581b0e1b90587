import Xinu.Abstract.Config
import Xinu.System.Types

/-!
# `Xinu.Proofs.Config.Parse`: the parser builds what is declared

`Parsed` ties the parser's variables to lists of declared entries. The
symbols have different names, so an entry found by comparing symbols is
the one with that name. The table of symbols only grows, so a symbol keeps
its name (`Resolves.mono`).

Each action extends a list or changes its last entry. `parsed_of_parse` is
the induction over the declarations.

For a device without an `on`, `parse.y` passes on symbol zero, and `mkdev`
takes only a negative number for no device name. Such a device is made
from the entry that is on a device named like the first identifier of the
file (`Configuration.selected`), or it is rejected.
-/

namespace Xinu.Config

open Lib List

/-! ### Attributes -/

/-- The attributes may be given one after the other. -/
theorem Values.override_cons (v : Values) (a : Attr) (l : List Attr) :
    v.override (a :: l) = (v.override [a]).override l := by
  have hlast : ∀ {β : Type} (f : Attr → Option β) (b : β),
      (lastOf f (a :: l)).getD b = (lastOf f l).getD ((lastOf f [a]).getD b) := by
    intro β f b
    rw [lastOf_cons, lastOf_cons]
    cases lastOf f l <;> rfl
  exact Values.ext (hlast _ _) (hlast _ _) (funext fun r => hlast _ _)

def DevEnt.values (e : DevEnt) : Values := ⟨e.csr, e.irq, e.routine⟩

/-- The entry after an attribute. -/
structure Sets (a : Attr) (e e' : DevEnt) : Prop where
  name : e'.name = e.name
  tnum : e'.tnum = e.tnum
  device : e'.device = e.device
  minor : e'.minor = e.minor
  values : e'.values = e.values.override [a]

/-! ### The entry that is selected -/

namespace Configuration
variable (cfg : Configuration)

/-- The name of symbol zero: the first identifier of the file. -/
def first : List Char :=
  match cfg.ftypes, cfg.descriptors with
  | t :: _, _ => t.tname.name
  | [], d :: _ => d.dname.name
  | [], [] => []

/-- The device that `mkdev` looks for. -/
def deviceName (d : Descriptor) : List Char := (d.on.map Ident.name).getD cfg.first

/-- The entry that `mkdev` finds. -/
def selected (d : Descriptor) : Option TypeEntry :=
  cfg.types.find? fun t => t.tname = d.tname.name ∧ t.device = cfg.deviceName d

variable {cfg} {d : Descriptor} {t : TypeEntry}

/-- With an `on` it is the matching one. -/
theorem selected_of_on (h : d.on ≠ none) : cfg.selected d = cfg.typeOf d := by
  obtain ⟨on, hon⟩ := Option.ne_none_iff_exists'.mp h
  simp only [selected, typeOf, deviceName, hon, Option.map_some, Option.getD_some,
    Option.mem_some_iff, forall_eq']

/-- There is a matching entry when one is selected. -/
theorem exists_typeOf (h : cfg.selected d = some t) : ∃ t', cfg.typeOf d = some t' := by
  by_cases hon : d.on = none
  · have hmem := mem_of_find?_eq_some h
    have hfound := find?_some h
    refine Option.isSome_iff_exists.mp (find?_isSome.mpr ⟨t, hmem, ?_⟩)
    have htn : t.tname = d.tname.name := (of_decide_eq_true hfound).1
    exact decide_eq_true ⟨htn, by simp [hon]⟩
  · exact ⟨t, selected_of_on hon ▸ h⟩

end Configuration

/-! ### Symbols -/

def Conf.names (s : Conf) : List (List Char) := s.symtab.map SymEnt.name

/-- The symbols of the entry are those of the declared one. -/
structure Resolves (names : List (List Char)) (e : DevEnt) (t : TypeEntry) : Prop where
  tname : names[e.tnum]? = some t.tname
  device : names[e.device]? = some t.device
  values : e.values = t.values

/-- The same, for a device with its name. -/
def ResolvesDev (names : List (List Char)) (e : DevEnt) (d : List Char × TypeEntry) : Prop :=
  Resolves names e d.2 ∧ ∃ i, e.name = some i ∧ names[i]? = some d.1

section Symbols
variable {names names' : List (List Char)} {e e' : DevEnt} {t : TypeEntry} {a : Attr}
  {d : List Char × TypeEntry}

theorem getElem?_mono {i : Nat} {n : List Char} (h : names <+: names') (hi : names[i]? = some n) :
    names'[i]? = some n := by
  obtain ⟨l, rfl⟩ := h
  rw [getElem?_append_left (List.getElem?_eq_some_iff.mp hi).1, hi]

theorem Resolves.mono (h : names <+: names') (he : Resolves names e t) : Resolves names' e t :=
  ⟨getElem?_mono h he.tname, getElem?_mono h he.device, he.values⟩

theorem ResolvesDev.mono (h : names <+: names') (he : ResolvesDev names e d) :
    ResolvesDev names' e d := by
  obtain ⟨hres, i, hname, hi⟩ := he
  exact ⟨hres.mono h, i, hname, getElem?_mono h hi⟩

theorem Resolves.sets (he : Resolves names e t) (ha : Sets a e e') :
    Resolves names e' { t with values := t.values.override [a] } := by
  refine ⟨?_, ?_, ?_⟩
  · rw [ha.tnum]
    exact he.tname
  · rw [ha.device]
    exact he.device
  · rw [ha.values, he.values]

theorem ResolvesDev.sets (he : ResolvesDev names e d) (ha : Sets a e e') :
    ResolvesDev names e' (d.1, { d.2 with values := d.2.values.override [a] }) := by
  obtain ⟨hres, i, hname, hi⟩ := he
  exact ⟨hres.sets ha, i, ha.name.trans hname, hi⟩

/-- Symbols are equal when their names are. -/
theorem symbol_eq_iff (hnd : names.Nodup) {i j : Nat} {m n : List Char} (hi : names[i]? = some m)
    (hj : names[j]? = some n) : i = j ↔ m = n := by
  rw [← getElem?_inj (List.getElem?_eq_some_iff.mp hi).1 hnd, hi, hj, Option.some_inj]

end Symbols

/-- What later actions do not take back. -/
structure Extends (s s' : Conf) : Prop where
  currtname : s'.currtname = s.currtname
  names : s.names <+: s'.names

theorem Extends.refl (s : Conf) : Extends s s := ⟨rfl, prefix_rfl⟩

theorem Extends.trans {s1 s2 s3 : Conf} (h : Extends s1 s2) (h' : Extends s2 s3) :
    Extends s1 s3 :=
  ⟨h'.currtname.trans h.currtname, h.names.trans h'.names⟩

/-- `lookup` leaves the type list alone. -/
theorem Conf.lookup_ftypes {s s' : Conf} {id : Ident} {i : Nat}
    (hrun : s.lookup id = .ok (i, s')) : s'.ftypes = s.ftypes := by
  unfold Conf.lookup at hrun
  split at hrun
  · cases hrun
    rfl
  · split at hrun
    · cases hrun
      rfl
    · cases hrun

/-! ### The state of the parser -/

/-- The parser has read the given entries and devices. -/
structure Parsed (first : List Char) (s : Conf) (types : List TypeEntry)
    (devs : List (List Char × TypeEntry)) : Prop where
  nodup : s.names.Nodup
  syms : ∀ e ∈ s.symtab, e.occurs = 0 ∧ ∃ id : Ident, e.name = id.name
  first : s.symtab ≠ [] → s.names[0]? = some first
  types : List.Forall₂ (Resolves s.names) s.ftypes types
  devs : List.Forall₂ (ResolvesDev s.names) s.devs devs
  ndevs : s.ndevs = s.devs.length

namespace Parsed
variable {first : List Char} {s s' : Conf} {types : List TypeEntry}
  {devs : List (List Char × TypeEntry)} {id : Ident} {i : Nat}

theorem init (first : List Char) : Parsed first {} [] [] :=
  ⟨nodup_nil, by simp, by simp, .nil, .nil, rfl⟩

/-- `lookup` returns a symbol with that name and may add it. -/
theorem lookup (h : Parsed first s types devs) (hfirst : s.symtab = [] → id.name = first)
    (hrun : s.lookup id = .ok (i, s')) :
    Parsed first s' types devs ∧ Extends s s' ∧ s'.names[i]? = some id.name := by
  unfold Conf.lookup at hrun
  split at hrun
  next i' hfind =>
    cases hrun
    obtain ⟨hlt, hname, -⟩ := findIdx?_eq_some_iff_getElem.mp hfind
    refine ⟨h, .refl s, ?_⟩
    rw [Conf.names, getElem?_map, List.getElem?_eq_getElem hlt]
    exact congrArg some (of_decide_eq_true hname)
  next hfind =>
    split at hrun
    · -- The name is new and there is room: it becomes the last symbol, so the
      -- numbers of the others stay.
      cases hrun
      have hnames : Conf.names { s with symtab := s.symtab ++ [⟨id.name, 0⟩] } =
          s.names ++ [id.name] := map_append
      have hpre : s.names <+: s.names ++ [id.name] := prefix_append _ _
      have hnew : ∀ e ∈ s.symtab, e.name ≠ id.name := fun e he =>
        of_decide_eq_false (findIdx?_eq_none_iff.mp hfind e he)
      refine ⟨⟨?_, ?_, ?_, ?_, ?_, h.ndevs⟩, ⟨rfl, hnames ▸ hpre⟩, ?_⟩
      · rw [hnames]
        refine nodup_append.mpr ⟨h.nodup, pairwise_singleton _ _, ?_⟩
        intro n hn m hm heq
        obtain ⟨e, he, rfl⟩ := mem_map.mp hn
        exact hnew e he (heq.trans (mem_singleton.mp hm))
      · intro e he
        rcases mem_append.mp he with he | he
        · exact h.syms e he
        · exact mem_singleton.mp he ▸ ⟨rfl, id, rfl⟩
      · intro _
        rw [hnames]
        by_cases hempty : s.symtab = []
        · simp [Conf.names, hempty, hfirst hempty]
        · exact getElem?_mono hpre (h.first hempty)
      · exact hnames ▸ h.types.imp fun e t he => he.mono hpre
      · exact hnames ▸ h.devs.imp fun e t he => he.mono hpre
      · rw [hnames]
        simp [Conf.names]
    · cases hrun

/-! ### Attributes -/

theorem symtab_ne_nil {i : Nat} {n : List Char} (h : s.names[i]? = some n) : s.symtab ≠ [] := by
  intro hnil
  simp [Conf.names, hnil] at h

/-- With a device, an attribute goes to the last one. -/
theorem newattr_dev {tok : Tok} {val : Int} {a : Attr} {d : List Char × TypeEntry}
    (h : Parsed first s types (devs ++ [d]))
    (hset : ∀ c e e', s.attrName val = .ok c → Conf.setAttr tok val c e = .ok e' → Sets a e e')
    (hrun : s.newattr tok val = .ok s') :
    Parsed first s' types (devs ++ [(d.1, { d.2 with values := d.2.values.override [a] })]) ∧
      Extends s s' := by
  obtain ⟨c, hc, hrun⟩ := bind_eq_ok hrun
  obtain ⟨l, e, hdevs, hl, he⟩ := exists_concat_of_forall₂ h.devs
  rw [hdevs, getLast?_concat, dropLast_concat] at hrun
  obtain ⟨e', he', hrun⟩ := bind_eq_ok hrun
  cases hrun
  refine ⟨{ h with devs := ?_, ndevs := ?_ }, ⟨rfl, prefix_rfl⟩⟩
  · exact forall₂_concat hl (he.sets (hset c e e' hc he'))
  · simp [h.ndevs, hdevs]

/-- Before the first device, an attribute goes to the last type entry. -/
theorem newattr_type {tok : Tok} {val : Int} {a : Attr} {t : TypeEntry}
    (h : Parsed first s (types ++ [t]) [])
    (hset : ∀ c e e', s.attrName val = .ok c → Conf.setAttr tok val c e = .ok e' → Sets a e e')
    (hrun : s.newattr tok val = .ok s') :
    Parsed first s' (types ++ [{ t with values := t.values.override [a] }]) [] ∧
      Extends s s' := by
  obtain ⟨c, hc, hrun⟩ := bind_eq_ok hrun
  have hdevs : s.devs = [] := List.forall₂_nil_right_iff.mp h.devs
  obtain ⟨l, e, htypes, hl, he⟩ := exists_concat_of_forall₂ h.types
  rw [hdevs, htypes, getLast?_concat, dropLast_concat] at hrun
  obtain ⟨e', he', hrun⟩ := bind_eq_ok hrun
  cases hrun
  refine ⟨{ h with types := ?_, devs := .nil, ndevs := ?_ }, ⟨rfl, prefix_rfl⟩⟩
  · exact forall₂_concat hl (he.sets (hset c e e' hc he'))
  · rw [h.ndevs, hdevs]

theorem attrName_eq {n : List Char} {c : Option (List Char)} (hi : s.names[i]? = some n)
    (hc : s.attrName i = .ok c) : c = some n := by
  rw [Conf.names, getElem?_map] at hi
  obtain ⟨e, he, rfl⟩ := Option.map_eq_some_iff.mp hi
  rw [Conf.attrName, if_pos (Int.natCast_nonneg i), Int.toNat_natCast, he] at hc
  simp only at hc
  split at hc
  · exact (Except.ok.inj hc).symm
  · cases hc

/-- An attribute is an assignment of its value, after the name of a
routine has become a symbol. -/
theorem attr_eq_newattr {a : Attr} (h : Parsed first s types devs) (hne : s.symtab ≠ [])
    (hrun : s.attr a = .ok s') : ∃ s1 tok val, Parsed first s1 types devs ∧ Extends s s1 ∧
      s1.newattr tok val = .ok s' ∧
      (∀ c e e', s1.attrName val = .ok c → Conf.setAttr tok val c e = .ok e' → Sets a e e') ∧
      s1.ftypes = s.ftypes := by
  cases a with
  | csr val =>
    refine ⟨s, .CSR, val, h, .refl s, hrun, fun c e e' _ he => ?_, rfl⟩
    cases he
    exact ⟨rfl, rfl, rfl, rfl, rfl⟩
  | irq val =>
    refine ⟨s, .IRQ, val, h, .refl s, hrun, fun c e e' _ he => ?_, rfl⟩
    cases he
    exact ⟨rfl, rfl, rfl, rfl, rfl⟩
  | routine r id =>
    obtain ⟨⟨val, s1⟩, hlookup, hrun⟩ := bind_eq_ok hrun
    obtain ⟨h1, hext, hval⟩ := h.lookup (fun hnil => absurd hnil hne) hlookup
    refine ⟨s1, .routine r, val, h1, hext, hrun, fun c e e' hc he => ?_,
      Conf.lookup_ftypes hlookup⟩
    -- The symbol was just found, so the copied string is its name.
    obtain rfl : c = some id.name := attrName_eq hval hc
    cases he
    refine ⟨rfl, rfl, rfl, rfl, Values.ext rfl rfl (funext fun r' => ?_)⟩
    by_cases hr : r = r'
    · subst hr
      simp [DevEnt.values, Values.override, lastOf, Attr.routine?]
    · simp [DevEnt.values, Values.override, lastOf, Attr.routine?, hr, Ne.symm hr]

theorem attrList_dev {attrs : List Attr} {d : List Char × TypeEntry}
    (h : Parsed first s types (devs ++ [d])) (hrun : s.attrList attrs = .ok s') :
    Parsed first s' types (devs ++ [(d.1, { d.2 with values := d.2.values.override attrs })]) ∧
      Extends s s' := by
  induction attrs generalizing s d with
  | nil =>
    obtain rfl := Except.ok.inj hrun
    exact ⟨h, .refl s⟩
  | cons a attrs ih =>
    obtain ⟨s2, ha, hrun⟩ := bind_eq_ok hrun
    obtain ⟨_, _, _, _, he⟩ := exists_concat_of_forall₂ h.devs
    obtain ⟨s1, tok, val, h1, hext1, hnew, hset, -⟩ :=
      h.attr_eq_newattr (symtab_ne_nil he.1.tname) ha
    obtain ⟨h2, hext2⟩ := h1.newattr_dev hset hnew
    obtain ⟨h3, hext3⟩ := ih h2 hrun
    rw [Values.override_cons]
    exact ⟨h3, (hext1.trans hext2).trans hext3⟩

theorem attrList_type {attrs : List Attr} {t : TypeEntry}
    (h : Parsed first s (types ++ [t]) []) (hrun : s.attrList attrs = .ok s') :
    Parsed first s' (types ++ [{ t with values := t.values.override attrs }]) [] ∧
      Extends s s' := by
  induction attrs generalizing s t with
  | nil =>
    obtain rfl := Except.ok.inj hrun
    exact ⟨h, .refl s⟩
  | cons a attrs ih =>
    obtain ⟨s2, ha, hrun⟩ := bind_eq_ok hrun
    obtain ⟨_, _, _, _, he⟩ := exists_concat_of_forall₂ h.types
    obtain ⟨s1, tok, val, h1, hext1, hnew, hset, -⟩ := h.attr_eq_newattr (symtab_ne_nil he.tname) ha
    obtain ⟨h2, hext2⟩ := h1.newattr_type hset hnew
    obtain ⟨h3, hext3⟩ := ih h2 hrun
    rw [Values.override_cons]
    exact ⟨h3, (hext1.trans hext2).trans hext3⟩

/-! ### Declarations -/

theorem optionalOn {on : Option Ident} (h : Parsed first s types devs) (hne : s.symtab ≠ [])
    (hrun : s.optionalOn on = .ok (i, s')) :
    Parsed first s' types devs ∧ Extends s s' ∧
      s'.names[i]? = some ((on.map Ident.name).getD first) := by
  cases on with
  | none =>
    cases hrun
    exact ⟨h, .refl s, h.first hne⟩
  | some id => exact h.lookup (fun hnil => absurd hnil hne) hrun

section
variable (h : Parsed first s types [])
include h

/-- `mktype` adds an entry, and refuses a second one for the same
device. -/
theorem mktype {cur dn : List Char} {tnum deviceid : Nat}
    (hcur : s.currtname = some tnum) (htnum : s.names[tnum]? = some cur)
    (hdev : s.names[deviceid]? = some dn) (hrun : s.mktype deviceid = .ok s') :
    Parsed first s' (types ++ [⟨cur, dn, Values.unspecified⟩]) [] ∧ Extends s s' := by
  unfold Conf.mktype at hrun
  split at hrun
  · cases hrun
  next tnum' htnum' =>
    cases hcur.symm.trans htnum'
    split at hrun
    · cases hrun
    · cases hrun
      have hnew : Resolves s.names (initattr tnum deviceid) ⟨cur, dn, Values.unspecified⟩ :=
        ⟨htnum, hdev, rfl⟩
      exact ⟨{ h with types := forall₂_concat h.types hnew }, ⟨rfl, prefix_rfl⟩⟩

/-- A type on a device adds an entry. -/
theorem typeDev {d : TypeDev} {cur : List Char} {tnum : Nat}
    (hcur : s.currtname = some tnum) (htnum : s.names[tnum]? = some cur)
    (hrun : s.typeDev d = .ok s') :
    Parsed first s' (types ++ [⟨cur, d.on.name, Values.unspecified.override d.attrs⟩]) [] ∧
      Extends s s' := by
  obtain ⟨⟨deviceid, s1⟩, hlookup, hrun⟩ := bind_eq_ok hrun
  obtain ⟨s2, hmk, hrun⟩ := bind_eq_ok hrun
  obtain ⟨h1, hext1, hdev⟩ := h.lookup (fun hnil => absurd hnil (symtab_ne_nil htnum)) hlookup
  obtain ⟨h2, hext2⟩ := h1.mktype (hext1.currtname.trans hcur) (getElem?_mono hext1.names htnum)
    hdev hmk
  obtain ⟨h3, hext3⟩ := h2.attrList_type hrun
  exact ⟨h3, (hext1.trans hext2).trans hext3⟩

theorem typeDevs {ds : List TypeDev} {cur : List Char} {tnum : Nat}
    (hcur : s.currtname = some tnum) (htnum : s.names[tnum]? = some cur)
    (hrun : ds.foldlM Conf.typeDev s = .ok s') :
    Parsed first s' (types ++ ds.map fun d =>
      ⟨cur, d.on.name, Values.unspecified.override d.attrs⟩) [] ∧ Extends s s' := by
  induction ds generalizing s types with
  | nil =>
    obtain rfl := Except.ok.inj hrun
    rw [map_nil, append_nil]
    exact ⟨h, .refl s⟩
  | cons d ds ih =>
    obtain ⟨s1, hd, hrun⟩ := bind_eq_ok hrun
    obtain ⟨h1, hext1⟩ := h.typeDev hcur htnum hd
    obtain ⟨h2, hext2⟩ := ih h1 (hext1.currtname.trans hcur) (getElem?_mono hext1.names htnum) hrun
    rw [map_cons, append_cons]
    exact ⟨h2, hext1.trans hext2⟩

theorem ftype {t : Ftype}
    (hfirst : s.symtab = [] → t.tname.name = first) (hrun : s.ftype t = .ok s') :
    Parsed first s' (types ++ t.devs.map fun d =>
      ⟨t.tname.name, d.on.name, Values.unspecified.override d.attrs⟩) [] ∧ s'.symtab ≠ [] := by
  obtain ⟨⟨symid, s1⟩, hlookup, hrun⟩ := bind_eq_ok hrun
  obtain ⟨tnum, hck, hrun⟩ := bind_eq_ok hrun
  obtain ⟨h1, -, hsym⟩ := h.lookup hfirst hlookup
  rw [Conf.cktname] at hck
  split at hck
  · cases hck
  cases hck
  obtain ⟨h2, hext2⟩ := typeDevs (s := { s1 with currtname := some symid })
    { h1 with } rfl hsym hrun
  exact ⟨h2, symtab_ne_nil (getElem?_mono hext2.names hsym)⟩

end

theorem fspecIds {d : Descriptor} {nameid typid deviceid : Nat} (h : Parsed first s types devs)
    (hfirst : s.symtab = [] → d.dname.name = first)
    (hrun : s.fspecIds d = .ok ((nameid, typid, deviceid), s')) :
    Parsed first s' types devs ∧ s'.names[nameid]? = some d.dname.name ∧
      s'.names[typid]? = some d.tname.name ∧
      s'.names[deviceid]? = some ((d.on.map Ident.name).getD first) := by
  obtain ⟨⟨symid, s1⟩, hlookup1, hrun⟩ := bind_eq_ok hrun
  obtain ⟨symid', hck, hrun⟩ := bind_eq_ok hrun
  obtain ⟨⟨typid', s2⟩, hlookup2, hrun⟩ := bind_eq_ok hrun
  obtain ⟨⟨deviceid', s3⟩, hon, hrun⟩ := bind_eq_ok hrun
  cases Except.ok.inj hrun
  obtain ⟨h1, -, hsym⟩ := h.lookup hfirst hlookup1
  have hne1 : s1.symtab ≠ [] := symtab_ne_nil hsym
  rw [Conf.ckdname] at hck
  split at hck
  · cases hck
  cases hck
  obtain ⟨h2, hext2, htyp⟩ := h1.lookup (fun hnil => absurd hnil hne1) hlookup2
  obtain ⟨h3, hext3, hdev⟩ := h2.optionalOn (symtab_ne_nil htyp) hon
  exact ⟨h3, getElem?_mono (hext2.names.trans hext3.names) hsym, getElem?_mono hext3.names htyp,
    hdev⟩

/-- `mkdev` copies the first entry with the type and the device that the
symbols name, and fails without one. -/
theorem mkdev {nameid typid deviceid : Nat} {tn dn : List Char} (h : Parsed first s types devs)
    (htyp : s.names[typid]? = some tn) (hdev : s.names[deviceid]? = some dn) :
    (types.find? (fun t => t.tname = tn ∧ t.device = dn) = none ∧
      s.mkdev nameid typid deviceid = .error (.badType nameid)) ∨
    ∃ t e, types.find? (fun t => t.tname = tn ∧ t.device = dn) = some t ∧ Resolves s.names e t ∧
      s.mkdev nameid typid deviceid = .ok { s with
        devs := s.devs ++ [{ e with name := some nameid }], ndevs := s.ndevs + 1 } := by
  -- Comparing the symbols is comparing the names.
  have hsame : ∀ e t, Resolves s.names e t → Conf.matchesType typid deviceid e =
      decide (t.tname = tn ∧ t.device = dn) := by
    intro e t he
    have htn := symbol_eq_iff h.nodup he.tname htyp
    have hdn := symbol_eq_iff h.nodup he.device hdev
    have hneg : ¬(deviceid : Int) < 0 := Int.not_lt.mpr (Int.natCast_nonneg _)
    simp [Conf.matchesType, htn, hdn, hneg]
  cases hfind : s.ftypes.find? (Conf.matchesType typid deviceid) with
  | none =>
    refine Or.inl ⟨?_, by rw [Conf.mkdev, hfind]⟩
    rw [Option.eq_none_iff_forall_ne_some]
    intro t ht
    obtain ⟨e, he, -⟩ := find?_of_forall₂ h.types.flip (fun t e he => (hsame e t he).symm) ht
    cases hfind.symm.trans he
  | some e =>
    obtain ⟨t, ht, he⟩ := find?_of_forall₂ h.types hsame hfind
    exact Or.inr ⟨t, e, ht, he, by rw [Conf.mkdev, hfind]⟩

/-- A device is made from the first type entry with its type and
device. -/
theorem descriptor {d : Descriptor} (h : Parsed first s types devs)
    (hfirst : s.symtab = [] → d.dname.name = first) (hrun : s.descriptor d = .ok s') :
    ∃ t, types.find? (fun t => t.tname = d.tname.name ∧
        t.device = (d.on.map Ident.name).getD first) = some t ∧
      Parsed first s' types
        (devs ++ [(d.dname.name, { t with values := t.values.override d.attrs })]) ∧
      s'.symtab ≠ [] := by
  obtain ⟨⟨⟨nameid, typid, deviceid⟩, s1⟩, hids, hrun⟩ := bind_eq_ok hrun
  obtain ⟨s2, hmk, hrun⟩ := bind_eq_ok hrun
  obtain ⟨h1, hname, htyp, hdev⟩ := h.fspecIds hfirst hids
  rcases h1.mkdev htyp hdev with ⟨-, herr⟩ | ⟨t, e, ht, he, hok⟩
  · cases hmk.symm.trans herr
  · cases hmk.symm.trans hok
    have hnew : ResolvesDev s1.names { e with name := some nameid } (d.dname.name, t) :=
      ⟨⟨he.tname, he.device, he.values⟩, nameid, rfl, hname⟩
    have h2 : Parsed first
        { s1 with devs := s1.devs ++ [{ e with name := some nameid }], ndevs := s1.ndevs + 1 }
        types (devs ++ [(d.dname.name, t)]) :=
      { h1 with devs := forall₂_concat h1.devs hnew, ndevs := by simp [h1.ndevs] }
    obtain ⟨h3, hext3⟩ := h2.attrList_dev hrun
    exact ⟨t, ht, h3, symtab_ne_nil (getElem?_mono hext3.names htyp)⟩

/-! ### The whole file -/

theorem ftypes {ts : List Ftype} (h : Parsed first s types [])
    (hfirst : s.symtab = [] → ∀ t ∈ ts.head?, t.tname.name = first)
    (hrun : ts.foldlM Conf.ftype s = .ok s') :
    Parsed first s' (types ++ ts.flatMap fun t => t.devs.map fun d =>
      ⟨t.tname.name, d.on.name, Values.unspecified.override d.attrs⟩) [] ∧
      (s'.symtab = [] → s.symtab = [] ∧ ts = []) := by
  induction ts generalizing s types with
  | nil =>
    cases hrun
    rw [flatMap_nil, append_nil]
    exact ⟨h, fun hnil => ⟨hnil, rfl⟩⟩
  | cons t ts ih =>
    obtain ⟨s1, ht, hrun⟩ := bind_eq_ok hrun
    obtain ⟨h1, hne1⟩ := h.ftype (fun hnil => hfirst hnil t rfl) ht
    obtain ⟨h2, hne2⟩ := ih h1 (fun hnil => absurd hnil hne1) hrun
    rw [flatMap_cons, ← List.append_assoc]
    exact ⟨h2, fun hnil => absurd (hne2 hnil).1 hne1⟩

theorem descriptors {ds : List Descriptor} (h : Parsed first s types devs)
    (hfirst : s.symtab = [] → ∀ d ∈ ds.head?, d.dname.name = first)
    (hrun : ds.foldlM Conf.descriptor s = .ok s') :
    ∃ vs, Parsed first s' types (devs ++ vs) ∧ List.Forall₂ (fun d v => ∃ t,
      types.find? (fun t => t.tname = d.tname.name ∧
        t.device = (d.on.map Ident.name).getD first) = some t ∧
      v = (d.dname.name, { t with values := t.values.override d.attrs })) ds vs := by
  induction ds generalizing s devs with
  | nil =>
    cases hrun
    exact ⟨[], (append_nil devs).symm ▸ h, .nil⟩
  | cons d ds ih =>
    obtain ⟨s1, hd, hrun⟩ := bind_eq_ok hrun
    obtain ⟨t, ht, h1, hne1⟩ := h.descriptor (fun hnil => hfirst hnil d rfl) hd
    obtain ⟨vs, h2, hvs⟩ := ih h1 (fun hnil => absurd hnil hne1) hrun
    rw [List.append_assoc] at h2
    exact ⟨_, h2, .cons ⟨t, ht, rfl⟩ hvs⟩

end Parsed

/-- An accepted configuration leaves its type entries and its devices. -/
theorem parsed_of_parse {cfg : Configuration} {s : Conf} (hrun : Conf.parse cfg = .ok s) :
    ∃ devs, Parsed cfg.first s cfg.types devs ∧ List.Forall₂ (fun d v => ∃ t,
      cfg.selected d = some t ∧ v = (d.dname.name, { t with values := t.values.override d.attrs }))
      cfg.descriptors devs := by
  obtain ⟨s1, htypes, hrun⟩ := bind_eq_ok hrun
  -- The first identifier is that of a type, or of a device if there is no type.
  have hfirst : ∀ t ∈ cfg.ftypes.head?, t.tname.name = cfg.first := by
    intro t ht
    obtain ⟨ts, hts⟩ := head?_eq_some_iff.mp ht
    rw [Configuration.first, hts]
  obtain ⟨h1, hne1⟩ := (Parsed.init cfg.first).ftypes (fun _ => hfirst) htypes
  refine h1.descriptors (fun hnil d hd => ?_) hrun
  obtain ⟨ds, hds⟩ := head?_eq_some_iff.mp hd
  rw [Configuration.first, (hne1 hnil).2, hds]

/-- A device as the parser leaves it. -/
structure Declared (cfg : Configuration) (names : List (List Char)) (d : Descriptor)
    (e : DevEnt) : Prop where
  name : ∃ i, e.name = some i ∧ names[i]? = some d.dname.name
  tname : names[e.tnum]? = some d.tname.name
  values : ∃ t, cfg.selected d = some t ∧ e.values = t.values.override d.attrs

theorem declared_of_parse {cfg : Configuration} {s : Conf} (hrun : Conf.parse cfg = .ok s) :
    (∃ devs, Parsed cfg.first s cfg.types devs) ∧
      List.Forall₂ (Declared cfg s.names) cfg.descriptors s.devs := by
  obtain ⟨devs, h, hdevs⟩ := parsed_of_parse hrun
  refine ⟨⟨devs, h⟩, (forall₂_of_forall₂_of_forall₂ h.devs hdevs).imp ?_⟩
  rintro d e ⟨v, ⟨t, ht, rfl⟩, hres, hname⟩
  have hfound := find?_some (show List.find? _ cfg.types = some t from ht)
  have htname : t.tname = d.tname.name := (of_decide_eq_true hfound).1
  exact ⟨hname, htname ▸ hres.tname, t, ht, hres.values⟩

/-! ### Names of `xinu.conf` -/

def uart : Ident := ⟨"uart".toList, by decide⟩

def hardware : Ident := ⟨"HARDWARE".toList, by decide⟩

def uartInit : Ident := ⟨"uartInit".toList, by decide⟩

def tty : Ident := ⟨"tty".toList, by decide⟩

def ttyInit : Ident := ⟨"ttyInit".toList, by decide⟩

end Xinu.Config
