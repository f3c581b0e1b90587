import Mathlib.Data.List.Nodup
import Xinu.Proofs.Config.Emit

/-!
# `Xinu.Proofs.Config.Consistent`: the output agrees with what is declared

`EmitOf` says what is written for the devices that the parser leaves. Most
clauses of `Consistent` follow from it for every accepted configuration.
Three may fail: a long name runs into its number, `NDEVS` is not defined
without a device, and a device without an `on` may be made from another
entry than the matching one. `consistent_emit_iff` says that there is
nothing else.
-/

namespace Xinu.Config

open Lib List

variable {devs : List DevEnt} {cfg : Configuration} {ds : List Descriptor}

section Emit
variable {cfg : Configuration} {s : Conf} {names : List (List Char)} {d : Descriptor}
  {e : DevEnt} {i m : Nat} {n : List Char}

theorem symName_eq (h : s.names[i]? = some n) : symName s.symtab i = n := by
  rw [Conf.names, getElem?_map] at h
  rw [symName, h, Option.getD_some]

theorem idxOf_eq (hnd : names.Nodup) (h : names[i]? = some n) : names.idxOf n = i := by
  obtain ⟨hi, rfl⟩ := List.getElem?_eq_some_iff.mp h
  exact hnd.idxOf_getElem i hi

theorem Declared.minor (h : Declared cfg names d e) : Declared cfg names d { e with minor := m } :=
  ⟨h.name, h.tname, h.values⟩

theorem declared_minors {ms : List Nat}
    (h : List.Forall₂ (Declared cfg names) ds devs) (hlen : ms.length = devs.length) :
    List.Forall₂ (Declared cfg names) ds
      (List.zipWith (fun s m => { s with minor := m }) devs ms) := by
  induction h generalizing ms with
  | nil => exact .nil
  | cons hd _ ih =>
    obtain ⟨m, ms, rfl⟩ := exists_cons_of_length_eq_add_one hlen
    exact .cons hd.minor (ih (Nat.succ.inj hlen))

/-- The name of a declared device. -/
theorem Declared.symName (h : Declared cfg s.names d e) :
    (e.name.map (symName s.symtab)).getD [] = d.dname.name := by
  obtain ⟨i, hname, hi⟩ := h.name
  rw [hname, Option.map_some, Option.getD_some, symName_eq hi]

/-- What is written for the devices: each symbol counts its devices. -/
structure EmitOf (cfg : Configuration) (s : Conf) (devs : List DevEnt) (symtab : List SymEnt) :
    Prop where
  out : s.emit =
    { names := cfg.descriptors.mapIdx fun i d => deviceLine d.dname.name i d.tname.name
      sizes := (symtab.filter fun e => 0 < e.occurs).map sizeLine
      ndevs := if 0 < s.ndevs then some ("#define NDEVS ".toList ++ decimal s.ndevs) else none
      includes := (symtab.filter fun e => 0 < e.occurs).map SymEnt.name
      devtab := devs.mapIdx (dentry symtab) }
  declared : List.Forall₂ (Declared cfg s.names) cfg.descriptors devs
  minors : devs.map DevEnt.minor = number (fun _ => 0) (cfg.typeNames.map s.names.idxOf)
  symbols : symtab.map SymEnt.name = s.names
  occurs : ∀ e ∈ symtab, e.occurs = cfg.count e.name

theorem tnum_lt (h : List.Forall₂ (Declared cfg names) ds devs) :
    ∀ e ∈ devs, e.tnum < names.length := by
  induction h with
  | nil => simp
  | cons hd _ ih =>
    exact forall_mem_cons.mpr ⟨(List.getElem?_eq_some_iff.mp hd.tname).1, ih⟩

/-- The types of the devices are symbols. -/
theorem mem_names (h : List.Forall₂ (Declared cfg names) ds devs) :
    ∀ t ∈ ds.map (fun d => d.tname.name), t ∈ names := by
  induction h with
  | nil => simp
  | cons hd _ ih => exact forall_mem_cons.mpr ⟨mem_of_getElem? hd.tname, ih⟩

theorem map_minor {ms : List Nat} (hlen : ms.length = devs.length) :
    (List.zipWith (fun s m => { s with minor := m }) devs ms).map DevEnt.minor = ms := by
  induction devs generalizing ms with
  | nil => exact (length_eq_zero_iff.mp hlen).symm
  | cons e devs ih =>
    obtain ⟨m, ms, rfl⟩ := exists_cons_of_length_eq_add_one hlen
    rw [zipWith_cons_cons, map_cons, ih (Nat.succ.inj hlen)]

theorem emitOf_of_parse (hrun : Conf.parse cfg = .ok s) :
    ∃ devs symtab, EmitOf cfg s devs symtab := by
  obtain ⟨⟨vs, hp⟩, hd⟩ := declared_of_parse hrun
  -- The symbol of a type stands for its name, as no two symbols share one.
  have htnums : cfg.typeNames.map s.names.idxOf = s.devs.map DevEnt.tnum := by
    rw [Configuration.typeNames, map_map]
    exact map_eq_of_forall₂ hd fun d e h => idxOf_eq hp.nodup h.tname
  have hnames : s.names.length = s.symtab.length := length_map ..
  -- All counters are zero when the devices are written.
  have hoccurs : occursOf s.symtab = fun _ => 0 := by
    funext i
    rw [occursOf]
    cases hi : s.symtab[i]? with
    | none => rfl
    | some e => exact (hp.syms e (mem_of_getElem? hi)).1
  have hloop := defineDevs_eq 0 s.symtab fun e he => hnames ▸ tnum_lt hd e he
  rw [hoccurs, ← htnums] at hloop
  have hlen : (number (fun _ => 0) (cfg.typeNames.map s.names.idxOf)).length = s.devs.length := by
    rw [length_number, htnums, length_map]
  refine ⟨_, s.symtab.mapIdx fun t e =>
    { e with occurs := e.occurs + (cfg.typeNames.map s.names.idxOf).count t },
    ?_, declared_minors hd hlen, map_minor hlen, ?_, ?_⟩
  · rw [Conf.emit, hloop]
    have hlines := mapIdx_eq_of_forall₂ (f := fun i (d : Descriptor) =>
        deviceLine d.dname.name i d.tname.name)
      (g := fun i (e : DevEnt) => deviceLine ((e.name.map (symName s.symtab)).getD []) (0 + i)
        (symName s.symtab e.tnum)) hd fun i d e h => by
          rw [h.symName, symName_eq h.tname, Nat.zero_add]
    simp only [hlines]
  · refine ext_getElem? fun t => ?_
    rw [getElem?_map, getElem?_mapIdx, Conf.names, getElem?_map, Option.map_map]
    rfl
  · intro e he
    obtain ⟨t, ht, rfl⟩ := mem_mapIdx.mp he
    have hzero := (hp.syms _ (getElem_mem ht)).1
    have hidx : s.names.idxOf (s.symtab[t]).name = t :=
      idxOf_eq hp.nodup (by rw [Conf.names, getElem?_map, List.getElem?_eq_getElem ht]; rfl)
    simp only [hzero, Nat.zero_add, Configuration.count]
    nth_rewrite 1 [← hidx]
    exact count_map_of_iff _ _ fun a ha => idxOf_inj (mem_names hd a ha)

end Emit

/-! ### The clauses -/

/-- Where a device names no device of its type, the matching entry and the
selected one give it the same attributes. -/
def Configuration.OnAgrees (cfg : Configuration) : Prop :=
  ∀ d ∈ cfg.descriptors, d.on = none → ∀ t ∈ cfg.typeOf d, ∀ t' ∈ cfg.selected d,
    t'.values.override d.attrs = t.values.override d.attrs

/-- A used type is declared. -/
theorem exists_ftype {names : List (List Char)}
    (h : List.Forall₂ (Declared cfg names) cfg.descriptors devs) {n : List Char}
    (hn : 0 < cfg.count n) : n ∈ cfg.ftypes.map fun t => t.tname.name := by
  obtain ⟨d, hd, rfl⟩ := mem_map.mp (count_pos_iff.mp hn)
  obtain ⟨i, hi, rfl⟩ := getElem_of_mem hd
  obtain ⟨t, ht, -⟩ := (List.forall₂_iff_get.mp h).2 i hi (h.length_eq ▸ hi) |>.values
  obtain ⟨ft, hft, hmem⟩ := mem_flatMap.mp (mem_of_find?_eq_some ht)
  obtain ⟨td, -, rfl⟩ := mem_map.mp hmem
  have hfound := find?_some (show List.find? _ cfg.types = some _ from ht)
  exact mem_map.mpr ⟨ft, hft, (of_decide_eq_true hfound).1⟩

/-- The names of two types are not those of one control block. -/
theorem Configuration.TypesDiffer.eq_of_sizeName (h : cfg.TypesDiffer)
    {m n : List Char} (hm : m ∈ cfg.ftypes.map fun t => t.tname.name)
    (hn : n ∈ cfg.ftypes.map fun t => t.tname.name) (heq : sizeName m = sizeName n) : m = n := by
  obtain ⟨t, ht, rfl⟩ := mem_map.mp hm
  obtain ⟨t', ht', rfl⟩ := mem_map.mp hn
  exact congrArg (fun t : Ftype => t.tname.name)
    (inj_on_of_nodup_map h ht ht' (List.cons.inj heq).2)

namespace EmitOf
variable {cfg : Configuration} {s : Conf} {devs : List DevEnt} {symtab : List SymEnt}
  (h : EmitOf cfg s devs symtab)
include h

theorem names_iff :
    s.emit.names.map define? = (cfg.descriptors.mapIdx fun i d => some (d.dname.name, decimal i)) ↔
      ∀ d ∈ cfg.descriptors, d.dname.text.length < 12 := by
  have hlen : ∀ id : Ident, id.text.length < 12 ↔ id.name.length < 12 := by
    intro id
    rw [Ident.name, length_take, show CONFMAXNM - 1 = 19 from rfl]
    omega
  rw [h.out]
  simp only
  rw [map_mapIdx]
  refine mapIdx_eq_mapIdx_iff_forall fun i d _ => ?_
  rw [hlen]
  constructor
  · intro heq
    by_contra hlong
    rw [define?_deviceLine_of_le d.dname.isWord_name (Nat.le_of_not_lt hlong)] at heq
    exact (isWord_decimal i).1 (Prod.mk.inj (Option.some.inj heq)).2.symm
  · exact fun hshort => define?_deviceLine d.dname.isWord_name hshort i _

theorem devtab_eq :
    s.emit.devtab.map (fun e => (e.num, e.name)) =
      cfg.descriptors.mapIdx fun i d => (i, d.dname.name) := by
  have hsym : symName symtab = symName s.symtab := by
    funext i
    rw [symName, symName, ← getElem?_map, ← getElem?_map, h.symbols, Conf.names]
  rw [h.out]
  simp only
  rw [map_mapIdx]
  refine (mapIdx_eq_of_forall₂ h.declared fun i d e he => ?_).symm
  rw [dentry, hsym, he.symName]

theorem minors_eq (t : List Char) :
    numbersOf t cfg.typeNames (s.emit.devtab.map Dentry.minor) = List.range (cfg.count t) := by
  have hminor : s.emit.devtab.map Dentry.minor =
      number (fun _ => 0) (cfg.typeNames.map s.names.idxOf) := by
    rw [h.out, ← h.minors]
    simp only
    rw [map_mapIdx]
    exact mapIdx_const _ _
  have hinj : ∀ a ∈ cfg.typeNames, s.names.idxOf a = s.names.idxOf t ↔ a = t := fun a ha =>
    idxOf_inj (mem_names h.declared a ha)
  rw [hminor, ← numbersOf_map s.names.idxOf t hinj, numbersOf_number,
    count_map_of_iff s.names.idxOf t hinj, Configuration.count, range_eq_range']

theorem sizes_iff (hsyms : ∀ e ∈ symtab, IsWord e.name)
    (hdiffer : cfg.TypesDiffer) {t : List Char} (ht : 0 < cfg.count t) (v : List Char) :
    some (sizeName t, v) ∈ s.emit.sizes.map define? ↔ v = decimal (cfg.count t) := by
  have hline : ∀ e ∈ symtab, define? (sizeLine e) = some (sizeName e.name, decimal e.occurs) :=
    fun e he => define?_sizeLine (hsyms e he)
  rw [h.out]
  simp only [map_map, mem_map, mem_filter, decide_eq_true_eq, Function.comp_apply]
  constructor
  · rintro ⟨e, ⟨he, hpos⟩, heq⟩
    rw [hline e he] at heq
    obtain ⟨hname, rfl⟩ := Prod.mk.inj (Option.some.inj heq)
    rw [h.occurs e he] at hpos ⊢
    rw [hdiffer.eq_of_sizeName (exists_ftype h.declared hpos) (exists_ftype h.declared ht) hname]
  · rintro rfl
    have hmem : t ∈ symtab.map SymEnt.name :=
      h.symbols ▸ mem_names h.declared t (count_pos_iff.mp ht)
    obtain ⟨e, he, rfl⟩ := mem_map.mp hmem
    have hoccurs := h.occurs e he
    exact ⟨e, ⟨he, hoccurs ▸ ht⟩, by rw [hline e he, hoccurs]⟩

theorem attributes_iff :
    List.Forall₂ (fun d (e : Dentry) => ∃ t, cfg.typeOf d = some t ∧
        Values.mk e.csr e.irq e.routine = t.values.override d.attrs)
      cfg.descriptors s.emit.devtab ↔ cfg.OnAgrees := by
  rw [h.out]
  refine forall₂_mapIdx_iff h.declared fun i d e he => ?_
  obtain ⟨t', ht', hvalues⟩ := he.values
  constructor
  · rintro ⟨t, ht, heq⟩ - t1 ht1 t1' ht1'
    cases ht.symm.trans ht1
    cases ht'.symm.trans ht1'
    exact hvalues.symm.trans heq
  · intro hon
    by_cases hnone : d.on = none
    · obtain ⟨t, ht⟩ := Configuration.exists_typeOf ht'
      exact ⟨t, ht, hvalues.trans (hon hnone t ht t' ht')⟩
    · exact ⟨t', Configuration.selected_of_on hnone ▸ ht', hvalues⟩

end EmitOf

theorem ndevs_iff {s : Conf} (h : s.ndevs = cfg.descriptors.length) :
    s.emit.ndevs.bind define? = some ("NDEVS".toList, decimal cfg.descriptors.length) ↔
      cfg.descriptors ≠ [] := by
  have hout : s.emit.ndevs =
      if 0 < s.ndevs then some ("#define NDEVS ".toList ++ decimal s.ndevs) else none := rfl
  rw [hout, h, ← length_pos_iff]
  split
  next hpos => exact iff_of_true (define?_ndevs _) hpos
  next hzero => exact iff_of_false (by rintro ⟨⟩) hzero

/-- The output agrees with the configuration exactly when every device has
a name that leaves room for a blank, there is a device, and the devices
without an `on` get the attributes of the matching entry. -/
theorem consistent_emit_iff {s : Conf} (hrun : Conf.parse cfg = .ok s) (hdiffer : cfg.TypesDiffer) :
    Consistent cfg s.emit ↔ (∀ d ∈ cfg.descriptors, d.dname.text.length < 12) ∧
      cfg.descriptors ≠ [] ∧ cfg.OnAgrees := by
  obtain ⟨⟨vs, hp⟩, hd⟩ := declared_of_parse hrun
  obtain ⟨devs, symtab, h⟩ := emitOf_of_parse hrun
  have hlen : s.ndevs = cfg.descriptors.length := hp.ndevs.trans hd.length_eq.symm
  have hsyms : ∀ e ∈ symtab, IsWord e.name := by
    intro e he
    have hmem : e.name ∈ s.names := h.symbols ▸ mem_map_of_mem he
    obtain ⟨e', he', hname⟩ := mem_map.mp hmem
    obtain ⟨id, hid⟩ := (hp.syms e' he').2
    exact hname ▸ hid ▸ id.isWord_name
  constructor
  · intro hc
    exact ⟨h.names_iff.mp hc.names, (ndevs_iff hlen).mp hc.ndevs, h.attributes_iff.mp hc.attributes⟩
  · rintro ⟨hnames, hne, hon⟩
    exact
      { names := h.names_iff.mpr hnames
        devtab := h.devtab_eq
        minors := h.minors_eq
        sizes := fun t ht v => h.sizes_iff hsyms hdiffer ht v
        ndevs := (ndevs_iff hlen).mpr hne
        attributes := h.attributes_iff.mpr hon }

/-! ### `xinu.conf` -/

def ionull : Ident := ⟨"ionull".toList, by decide⟩

/-- The type of `xinu.conf` and a device of it, and the `uart` that is
commented out there, with some of its routines. -/
def xinuConf (dname : Ident) : Configuration where
  ftypes := [
    { tname := ⟨"null".toList, by decide⟩
      devs := [⟨⟨"NOTHING".toList, by decide⟩, [.routine .init ionull, .routine .open ionull,
        .routine .close ionull, .routine .read ionull, .routine .getc ionull,
        .routine .putc ionull, .routine .write ionull]⟩]
      ne := cons_ne_nil _ _ },
    ⟨uart, [⟨hardware, [.routine .init uartInit, .routine .open ionull]⟩], cons_ne_nil _ _⟩]
  descriptors := [⟨dname, ⟨"null".toList, by decide⟩, some ⟨"NOTHING".toList, by decide⟩, []⟩,
    ⟨⟨"SERIAL0".toList, by decide⟩, uart, some hardware, [.csr 0x3F201000, .irq 57]⟩]

def devnull : Ident := ⟨"DEVNULL".toList, by decide⟩

theorem xinuConf_typesDiffer (dname : Ident) : (xinuConf dname).TypesDiffer :=
  show ([_, _] : List (List Char)).Nodup by decide

theorem consistent_xinuConf :
    ∃ s, Conf.parse (xinuConf devnull) = .ok s ∧ Consistent (xinuConf devnull) s.emit := by
  refine ⟨_, rfl, (consistent_emit_iff rfl (xinuConf_typesDiffer devnull)).mpr ⟨?_, ?_, ?_⟩⟩
  · exact forall_mem_cons.mpr ⟨by decide, forall_mem_singleton.mpr (by decide)⟩
  · exact cons_ne_nil _ _
  · exact forall_mem_cons.mpr ⟨nofun, forall_mem_singleton.mpr nofun⟩

/-- A name of twelve characters. -/
def loopbacknull : Ident := ⟨"LOOPBACKNULL".toList, by decide⟩

/-- The line for it is "#define LOOPBACKNULL0", which does not define
it. -/
theorem not_consistent_loopbacknull : ∃ s, Conf.parse (xinuConf loopbacknull) = .ok s ∧
    (xinuConf loopbacknull).TypesDiffer ∧ ¬Consistent (xinuConf loopbacknull) s.emit := by
  obtain ⟨s, hrun⟩ : ∃ s, Conf.parse (xinuConf loopbacknull) = .ok s := ⟨_, rfl⟩
  refine ⟨s, hrun, xinuConf_typesDiffer loopbacknull, fun hc => ?_⟩
  obtain ⟨devs, symtab, h⟩ := emitOf_of_parse hrun
  exact absurd (h.names_iff.mp hc.names _ mem_cons_self) (by decide)

end Xinu.Config
