import Xinu.Proofs.Config.Parse

/-!
# `Xinu.Proofs.Config.Select`: the type entry of a device

`mkdev` can take a missing device name for a wildcard, but `parse.y` never
passes it one: without an `on` the value is zero, a symbol like any other.
`mkdev_selects_iff` says when this makes no difference. The first entry of
the type must be on a device that is named like the first identifier of
the file.

With an `on` the entry is always the right one.
-/

namespace Xinu.Config

open Lib List

/-- The outcome of `mkdev` is the one for the declaration `d`: a copy of
the matching type entry under the name of the device, or an error when
there is none. -/
structure Selects (cfg : Configuration) (d : Descriptor) (r : Except Exit Conf) : Prop where
  found : ∀ t, cfg.typeOf d = some t → ∃ s e, r = .ok s ∧ s.devs.getLast? = some e ∧
    ResolvesDev s.names e (d.dname.name, t)
  missing : cfg.typeOf d = none → ∃ nameid, r = .error (.badType nameid)

section Select
variable {cfg : Configuration} {d : Descriptor} {s s' : Conf} {first : List Char}
  {names : List (List Char)} {e : DevEnt} {t t' : TypeEntry} {nameid typid deviceid : Nat}

/-- An entry stands for one declared entry. -/
theorem Resolves.unique (h : Resolves names e t) (h' : Resolves names e t') : t = t' := by
  have htname : t.tname = t'.tname := Option.some.inj (h.tname.symm.trans h'.tname)
  have hdevice : t.device = t'.device := Option.some.inj (h.device.symm.trans h'.device)
  have hvalues : t.values = t'.values := h.values.symm.trans h'.values
  cases t
  cases t'
  exact TypeEntry.mk.injEq .. ▸ ⟨htname, hdevice, hvalues⟩

/-- Looking for the device `first` finds what looking for any device
finds, when that is on `first`. -/
theorem find?_eq_typeOf_iff :
    cfg.types.find? (fun t => t.tname = d.tname.name ∧
        t.device = (d.on.map Ident.name).getD first) = cfg.typeOf d ↔
      (d.on = none → ∀ t, cfg.typeOf d = some t → t.device = first) := by
  cases hon : d.on with
  | some on =>
    -- With an `on` both sides look for the same name.
    refine iff_of_true ?_ (fun hnone => by cases hnone)
    simp only [Configuration.typeOf, hon, Option.map_some, Option.getD_some, Option.mem_some_iff,
      forall_eq']
  | none =>
    simp only [Option.map_none, Option.getD_none, true_implies]
    have htypeOf : cfg.typeOf d = cfg.types.find? fun t => t.tname = d.tname.name := by
      simp only [Configuration.typeOf, hon, Option.not_mem_none, false_implies, implies_true,
        and_true]
    rw [htypeOf]
    constructor
    · intro heq t ht
      have hfound := find?_some (heq.trans ht)
      exact (of_decide_eq_true hfound).2
    · intro hfirst
      cases ht : cfg.types.find? fun t => t.tname = d.tname.name with
      | none =>
        -- An entry on `first` would be one of the type.
        refine find?_eq_none.mpr fun t hmem hboth => ?_
        have hno := find?_eq_none.mp ht t hmem
        exact hno (decide_eq_true (of_decide_eq_true hboth).1)
      | some t =>
        -- The entries before `t` are of other types, so none of them is found earlier.
        obtain ⟨htn, pre, post, hsplit, hpre⟩ := find?_eq_some_iff_append.mp ht
        refine find?_eq_some_iff_append.mpr ⟨?_, pre, post, hsplit, fun u hu => ?_⟩
        · exact decide_eq_true ⟨of_decide_eq_true htn, hfirst t ht⟩
        · have hno := hpre u hu
          simp only [Bool.not_eq_eq_eq_not, Bool.not_true, decide_eq_false_iff_not] at hno ⊢
          exact fun hboth => hno hboth.1

/-- `mkdev` selects the matching entry when it looks for the name of that
entry. -/
theorem selects_iff_find? {devs : List (List Char × TypeEntry)} {dn : List Char}
    (h : Parsed first s cfg.types devs)
    (hname : s.names[nameid]? = some d.dname.name) (htyp : s.names[typid]? = some d.tname.name)
    (hdev : s.names[deviceid]? = some dn) :
    Selects cfg d (s.mkdev nameid typid deviceid) ↔
      cfg.types.find? (fun t => t.tname = d.tname.name ∧ t.device = dn) = cfg.typeOf d := by
  constructor
  · intro hsel
    rcases h.mkdev htyp hdev with ⟨hnone, herr⟩ | ⟨t, e, ht, he, hok⟩
    · cases htypeOf : cfg.typeOf d with
      | none => exact hnone
      | some t =>
        obtain ⟨s', e, hrun, -⟩ := hsel.found t htypeOf
        cases herr.symm.trans hrun
    · cases htypeOf : cfg.typeOf d with
      | none =>
        obtain ⟨_, hrun⟩ := hsel.missing htypeOf
        cases hok.symm.trans hrun
      | some t' =>
        obtain ⟨s', e', hrun, hlast, hres, -⟩ := hsel.found t' htypeOf
        cases hok.symm.trans hrun
        rw [getLast?_concat] at hlast
        cases hlast
        -- The device is a copy of the entry that was found, and shows only one.
        have hres' : Resolves s.names { e with name := some nameid } t :=
          ⟨he.tname, he.device, he.values⟩
        rw [ht, hres'.unique hres]
  · intro heq
    rcases h.mkdev htyp hdev with ⟨hnone, herr⟩ | ⟨t, e, ht, he, hok⟩
    · refine ⟨fun t ht => ?_, fun _ => ⟨nameid, herr⟩⟩
      cases (heq.symm.trans hnone).symm.trans ht
    · refine ⟨fun t' ht' => ?_, fun hnone => ?_⟩
      · cases ht.symm.trans (heq.trans ht')
        exact ⟨_, _, hok, getLast?_concat, ⟨he.tname, he.device, he.values⟩, nameid, rfl, hname⟩
      · cases ht.symm.trans (heq.trans hnone)

/-- A file that has declared a type has a first identifier. -/
theorem symtab_ne_nil_of_typeOf {devs : List (List Char × TypeEntry)}
    (h : Parsed first s cfg.types devs) (ht : cfg.typeOf d = some t) : s.symtab ≠ [] := by
  have hmem : t ∈ cfg.types := mem_of_find?_eq_some ht
  obtain ⟨i, hi, rfl⟩ := getElem_of_mem hmem
  have hres := (List.forall₂_iff_get.mp h.types).2 i (h.types.length_eq ▸ hi) hi
  exact Parsed.symtab_ne_nil hres.tname

/-- **The device without an `on`.** After any declarations, the symbols of
`fspec` make `mkdev` select the matching type entry exactly when an `on`
is given, or the first entry of the type is on a device named like the
first identifier of the file, or there is none. -/
theorem mkdev_selects_iff (hrun : Conf.parse cfg = .ok s)
    (hids : s.fspecIds d = .ok ((nameid, typid, deviceid), s')) :
    Selects cfg d (s'.mkdev nameid typid deviceid) ↔
      (d.on = none → ∀ t, cfg.typeOf d = some t → t.device = cfg.first) := by
  obtain ⟨devs, h, -⟩ := parsed_of_parse hrun
  by_cases hempty : s.symtab = []
  · -- No identifier has been read, so there are no types.
    have hnone : cfg.typeOf d = none := by
      rw [Option.eq_none_iff_forall_ne_some]
      exact fun t ht => symtab_ne_nil_of_typeOf h ht hempty
    have h0 : Parsed d.dname.name s cfg.types devs :=
      { h with first := fun hne => absurd hempty hne }
    obtain ⟨h1, hname, htyp, hdev⟩ := h0.fspecIds (fun _ => rfl) hids
    rw [selects_iff_find? h1 hname htyp hdev, find?_eq_typeOf_iff, hnone]
    exact iff_of_true (fun _ t ht => by cases ht) (fun _ t ht => by cases ht)
  · obtain ⟨h1, hname, htyp, hdev⟩ := h.fspecIds (fun hnil => absurd hnil hempty) hids
    rw [selects_iff_find? h1 hname htyp hdev, find?_eq_typeOf_iff]

end Select

/-! ### A device without an `on` -/

def hw : Ident := ⟨"hw".toList, by decide⟩

/-- The declarations of the types `uart`, on a device, and `tty`. -/
def uartOn (on : Ident) : Configuration where
  ftypes := [⟨uart, [⟨on, [.csr 0x10000000, .irq 10]⟩], cons_ne_nil _ _⟩,
    ⟨tty, [⟨uart, [.routine .init ttyInit]⟩], cons_ne_nil _ _⟩]
  descriptors := []

/-- The declaration "CONSOLE is uart". -/
def consoleIsUart : Descriptor := ⟨⟨"CONSOLE".toList, by decide⟩, uart, none, []⟩

/-- "uart: on uart" is found: `uart` is the first identifier. -/
theorem mkdev_selects_uart : ∃ s s', Conf.parse (uartOn uart) = .ok s ∧
    s.fspecIds consoleIsUart = .ok ((3, 0, 0), s') ∧
    Selects (uartOn uart) consoleIsUart (s'.mkdev 3 0 0) := by
  refine ⟨_, _, rfl, rfl, (mkdev_selects_iff rfl rfl).mpr fun _ t ht => ?_⟩
  have ht' : some (⟨uart.name, uart.name, Values.unspecified.override
    [.csr 0x10000000, .irq 10]⟩ : TypeEntry) = some t := ht
  exact congrArg TypeEntry.device (Option.some.inj ht').symm

/-- "uart: on hw" is not: "CONSOLE is uart" is rejected, although there is
an entry of the type. -/
theorem mkdev_rejects_uart : ∃ s s' t, Conf.parse (uartOn hw) = .ok s ∧
    s.fspecIds consoleIsUart = .ok ((4, 0, 0), s') ∧ (uartOn hw).typeOf consoleIsUart = some t ∧
    s'.mkdev 4 0 0 = .error (.badType 4) ∧
    ¬Selects (uartOn hw) consoleIsUart (s'.mkdev 4 0 0) := by
  refine ⟨_, _, _, rfl, rfl, rfl, rfl, fun hsel => ?_⟩
  obtain ⟨s, e, hok, -⟩ := hsel.found _ rfl
  cases hok

end Xinu.Config
