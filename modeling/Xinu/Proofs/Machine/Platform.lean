import Xinu.Proofs.Machine.Strings

/-!
# `Xinu.Proofs.Machine.Platform`: what the handlers read and store

`handleProp` chooses a handler by the name of the node. `handleProp_eq`
has this choice in terms of the name, and each handler has an equation in
terms of the name of the property. `memory_reg_iff` says for which base
and size of a memory node the platform record gets what the device tree
says. `dtb_read_long` takes both of its halves from the second word of a
value, so the first word, with the upper half, is lost.

`parseDtbNodes_eq_ok_iff` connects the two models of the walk: with its
handlers it makes the calls that it lists without them.
-/

namespace Xinu.Dtb

open BitVec

open Lib (Holds Mapped holds_append mapped_add)
open Bytes

variable {shl : Uint → Uint} {m : Bytes} {fuel : Nat} {p : Platform} {call : PropCall}
  {name : CString} {r : Syscall × Platform}

theorem memoryAt_nonzero : ∀ d ∈ memoryAt, d ≠ 0 := by decide +kernel
theorem uartAt_nonzero : ∀ d ∈ uartAt, d ≠ 0 := by decide +kernel
theorem reg_nonzero : ∀ d ∈ reg, d ≠ 0 := by decide +kernel
theorem clockFrequency_nonzero : ∀ d ∈ clockFrequency, d ≠ 0 := by decide +kernel
theorem model_nonzero : ∀ d ∈ model, d ≠ 0 := by decide +kernel

/-! ### The choice of the handler -/

/-- The name of the node decides. -/
theorem handleProp_eq (hname : Holds m call.name name.encode) :
    handleProp shl m fuel p call =
      if memoryAt <+: name.bytes then memoryHandler shl m p call
      else if uartAt <+: name.bytes then uartHandler shl m p call
      else if name.bytes = [] then baseHandler m fuel p call
      else .ok (.syserr, p) := by
  obtain ⟨x, hx, hmemory⟩ := strncmp_of_holds memoryAt_nonzero name.nonzero hname
  obtain ⟨y, hy, huart⟩ := strncmp_of_holds uartAt_nonzero name.nonzero hname
  have hx' : m.strncmp call.name memoryAt 7 = .ok x := hx
  have hy' : m.strncmp call.name uartAt 5 = .ok y := hy
  have hstart : call.name + 0 = call.name := BitVec.add_zero _
  have hlen : m.strnlen call.name PLT_STRMAX =
      .ok (0 + BitVec.ofNat 64 (min PLT_STRMAX name.bytes.length)) := by
    refine strnlenLoop_of_holds name.nonzero ?_
    rw [hstart]
    exact hname
  have hempty : (0 : Ulong64) + BitVec.ofNat 64 (min PLT_STRMAX name.bytes.length) = 0 ↔
      name.bytes = [] := by
    have hmax : PLT_STRMAX = 18 := rfl
    have hzero : (0 : Ulong64).toNat = 0 := rfl
    rw [← toNat_inj, toNat_add, toNat_ofNat, hzero, ← List.length_eq_zero_iff,
      hmax]
    omega
  rw [handleProp, hx', ok_bind, if_congr hmemory rfl rfl]
  refine if_congr Iff.rfl rfl ?_
  rw [hy', ok_bind, if_congr huart rfl rfl]
  refine if_congr Iff.rfl rfl ?_
  rw [hlen, ok_bind, if_congr hempty rfl rfl]
  rfl

/-- There is no node yet, or none any more. -/
theorem handleProp_null (hname : m call.name = none) :
    handleProp shl m fuel p call = .error .outOfBounds := by
  rw [handleProp, strncmp, byte_of_none hname]
  rfl

/-! ### The equations of the handlers -/

theorem memoryHandler_eq (h : m.Compares call.pname reg) :
    memoryHandler shl m p call =
      if Holds m call.pname (reg ++ [0]) ∧ call.plen = 16 then do
        let min ← dtbReadLong shl m call.propVal
        let max := min + (← dtbReadLong shl m (call.propVal + 8))
        return (.ok, { p with minaddr := min, maxaddr := max })
      else .ok (.ok, p) := by
  obtain ⟨c, hc, hiff⟩ := strcmp_spec reg_nonzero h
  rw [memoryHandler, hc, ok_bind, if_congr (and_congr_left' hiff) rfl rfl]
  rfl

theorem uartHandler_eq (h : m.Compares call.pname reg) :
    uartHandler shl m p call =
      if Holds m call.pname (reg ++ [0]) then do
        let addr ← dtbReadLong shl m call.propVal
        return (.ok, { p with uartAddr := addr })
      else do
        if (← m.strcmp call.pname clockFrequency) = 0 then
          return (.ok, { p with uartClock := ← m.uint call.propVal })
        else return (.ok, p) := by
  obtain ⟨c, hc, hiff⟩ := strcmp_spec reg_nonzero h
  rw [uartHandler, hc, ok_bind, if_congr hiff rfl rfl]

/-! ### The calls of the walk -/

/-- The call of `handleProp` for the property at `index`. -/
def propCall (structBase stringBase ptr : Ulong64) (index plen nameoff : Uint) : PropCall :=
  ⟨ptr, stringBase + nameoff.setWidth 64, tokptr structBase index + 4 + 8, plen⟩

/-- The calls of `handleProp`, one after the other. -/
def handleAll (shl : Uint → Uint) (m : Bytes) (fuel : Nat) :
    Platform → List PropCall → Except Fault Platform
  | p, [] => .ok p
  | p, call :: calls => do
    let r ← handleProp shl m fuel p call
    handleAll shl m fuel r.2 calls

/-- A result of the loop with its handlers, and one of the loop without
them: the calls that the second lists lead to the record of the first. -/
def Agree (shl : Uint → Uint) (m : Bytes) (fuel : Nat) (p : Platform)
    (x : Except Fault (Syscall × Platform)) (y : Except Fault (Syscall × List PropCall)) : Prop :=
  ∀ res p', x = .ok (res, p') ↔
    ∃ calls, y = .ok (res, calls) ∧ handleAll shl m fuel p calls = .ok p'

section Agree
variable {α : Type} {a b : Except Fault (Syscall × Platform)}
  {c d : Except Fault (Syscall × List PropCall)}

theorem Agree.error (e : Fault) : Agree shl m fuel p (.error e) (.error e) :=
  fun _ _ => ⟨nofun, fun ⟨_, h, _⟩ => nomatch h⟩

/-- Both read the same word first. -/
theorem Agree.bind (x : Except Fault α) {f : α → Except Fault (Syscall × Platform)}
    {g : α → Except Fault (Syscall × List PropCall)}
    (h : ∀ v, Agree shl m fuel p (f v) (g v)) : Agree shl m fuel p (x >>= f) (x >>= g) := by
  cases x with
  | ok v => exact h v
  | error e => exact .error e

theorem Agree.ite {q : Prop} [Decidable q] (h : Agree shl m fuel p a c)
    (h' : Agree shl m fuel p b d) :
    Agree shl m fuel p (if q then a else b) (if q then c else d) := by
  split
  · exact h
  · exact h'

/-- The end of the walk. -/
theorem Agree.done (res : Syscall) : Agree shl m fuel p (.ok (res, p)) (.ok (res, [])) := by
  intro res' p'
  constructor
  · intro h
    cases h
    exact ⟨[], rfl, rfl⟩
  · rintro ⟨calls, h, hall⟩
    cases h
    rw [Except.ok.inj hall]

/-- A call comes before those of the rest. -/
theorem Agree.handle {rest : Platform → Except Fault (Syscall × Platform)}
    (h : ∀ p, Agree shl m fuel p (rest p) c) :
    Agree shl m fuel p (do let (_, p) ← handleProp shl m fuel p call; rest p)
      (do let (r, calls) ← c; return (r, call :: calls)) := by
  intro res p'
  constructor
  · intro hrun
    obtain ⟨r, hr, hrun⟩ := bind_eq_ok hrun
    obtain ⟨calls, rfl, hall⟩ := (h r.2 _ _).mp hrun
    refine ⟨call :: calls, rfl, ?_⟩
    rw [handleAll, hr, ok_bind, hall]
  · rintro ⟨calls, hrun, hall⟩
    obtain ⟨⟨res', calls⟩, hc, hrun⟩ := bind_eq_ok hrun
    cases hrun
    obtain ⟨r, hr, hall⟩ := bind_eq_ok hall
    rw [hr, ok_bind]
    exact (h r.2 _ _).mpr ⟨calls, hc, hall⟩

end Agree

/-- The loop with its handlers makes the calls that the loop without them
lists. -/
theorem parseLoop_agree {structBase stringBase : Ulong64} (rounds : Nat) :
    ∀ {index : Uint} {ptr : Ulong64} {p : Platform}, Agree shl m fuel p
      (Platform.parseLoop shl m fuel structBase stringBase rounds index ptr p)
      (parseLoop m fuel structBase stringBase rounds index ptr) := by
  induction rounds with
  | zero =>
    intro index ptr p
    exact .error .nontermination
  | succ rounds ih =>
    intro index ptr p
    rw [Platform.parseLoop, parseLoop, parseTokens, parseTokens]
    -- A property is the only token with a call.
    exact .bind _ fun n => .ite (.bind _ fun len => ih) (.ite
      (.bind _ fun n1 => .bind _ fun n2 => .handle fun p => ih)
      (.ite ih (.ite ih (.ite (.done .ok) (.done .syserr)))))

/-- `parseDtbNodes` makes the calls that its walk lists. -/
theorem parseDtbNodes_eq_ok_iff {dtbAddr : Ulong64} {res : Syscall} {p' : Platform} :
    Platform.parseDtbNodes shl m fuel p dtbAddr = .ok (res, p') ↔
      ∃ calls, parseDtbNodes m fuel dtbAddr = .ok (res, calls) ∧
        handleAll shl m fuel p calls = .ok p' :=
  Agree.bind _ (fun _ => .bind _ fun _ => parseLoop_agree fuel) res p'

/-! ### Memory nodes -/

/-- What `dtb_read_long` makes of a value. -/
def readValue (shl : Uint → Uint) (x : Ulong64) : Ulong64 :=
  (shl (x.setWidth 32) ||| x.setWidth 32).setWidth 64

theorem dtbReadLong_of_holds {a x : Ulong64} (h : Holds m a (be64 x)) :
    dtbReadLong shl m a = .ok (readValue shl x) := by
  obtain ⟨hhigh, hlow⟩ := holds_append.mp h
  obtain ⟨first, hfirst, -⟩ := uint_of_holds hhigh
  obtain ⟨second, hsecond, hvalue⟩ := uint_of_holds hlow
  have hsecond' : m.uint (a + 4) = .ok second := hsecond
  -- The second word in memory is the upper half of what is loaded.
  have hhalf : ((second ++ first : Ulong64) >>> 32).setWidth 32 = second := by
    apply eq_of_getLsbD_eq
    intro i hi
    rw [getLsbD_setWidth, getLsbD_ushiftRight, getLsbD_append,
      decide_eq_true hi, Bool.true_and, if_neg (by omega), Nat.add_sub_cancel_left]
  rw [dtbReadLong, ulong, hfirst, ok_bind, hsecond', ok_bind]
  show Except.ok _ = Except.ok _
  rw [hhalf, hvalue, readValue]

theorem toNat_readValue_lt (shl : Uint → Uint) (x : Ulong64) :
    (readValue shl x).toNat < 2 ^ 32 := by
  rw [readValue, toNat_setWidth]
  have := (shl (x.setWidth 32) ||| x.setWidth 32).isLt
  omega

/-- The value survives when it has 32 bits and the shift adds none. -/
theorem readValue_eq_iff {x : Ulong64} :
    readValue shl x = x ↔
      x.toNat < 2 ^ 32 ∧ shl (x.setWidth 32) ||| x.setWidth 32 = x.setWidth 32 := by
  have hlow : (x.setWidth 32).toNat = x.toNat % 2 ^ 32 := toNat_setWidth ..
  have hlt := (shl (x.setWidth 32) ||| x.setWidth 32).isLt
  rw [← toNat_inj (x := shl _ ||| _), hlow, ← toNat_inj, readValue,
    toNat_setWidth, Nat.mod_eq_of_lt (Nat.lt_trans hlt (by decide))]
  omega

theorem handleProp_memory {base size : Ulong64} (hname : Holds m call.name name.encode)
    (hmemory : memoryAt <+: name.bytes) (hpname : Holds m call.pname (reg ++ [0]))
    (hplen : call.plen = 16) (hval : Holds m call.propVal (be64 base ++ be64 size)) :
    handleProp shl m fuel p call = .ok (.ok, { p with
      minaddr := readValue shl base
      maxaddr := readValue shl base + readValue shl size }) := by
  obtain ⟨hbase, hsize⟩ := holds_append.mp hval
  have hsize' : Holds m (call.propVal + 8) (be64 size) := hsize
  rw [handleProp_eq hname, if_pos hmemory,
    memoryHandler_eq (compares_of_holds reg_nonzero hpname), if_pos ⟨hpname, hplen⟩,
    dtbReadLong_of_holds hbase, ok_bind, dtbReadLong_of_holds hsize', ok_bind]
  rfl

end Xinu.Dtb

namespace Xinu

open Lib (Holds holds_append)
open Dtb

/-- A memory node has the property `reg` with a base and a size. Then the
platform record gets this memory if and only if both have 32 bits, and the
shift by 32 gives no bit that is not there already. -/
theorem memory_reg_iff (shl : Uint → Uint) {m : Bytes} (fuel : Nat) (p : Platform)
    {call : PropCall} {name : CString} (hname : Holds m call.name name.encode)
    (hmemory : memoryAt <+: name.bytes) (hpname : Holds m call.pname (reg ++ [0]))
    (hplen : call.plen = 16) {base size : Ulong64}
    (hval : Holds m call.propVal (be64 base ++ be64 size)) :
    (∃ p', handleProp shl m fuel p call = .ok (.ok, p') ∧
      p'.minaddr = base ∧ p'.maxaddr = base + size) ↔
    base.toNat < 2 ^ 32 ∧ size.toNat < 2 ^ 32 ∧
      ∀ x ∈ [base, size], shl (x.setWidth 32) ||| x.setWidth 32 = x.setWidth 32 := by
  have hrun : handleProp shl m fuel p call = .ok (.ok, { p with
      minaddr := readValue shl base
      maxaddr := readValue shl base + readValue shl size }) :=
    handleProp_memory hname hmemory hpname hplen hval
  constructor
  · rintro ⟨p', h, hmin, hmax⟩
    obtain rfl := (ok_pair (hrun.symm.trans h)).2
    have hbase : readValue shl base = base := hmin
    have hsum : readValue shl base + readValue shl size = base + size := hmax
    rw [hbase] at hsum
    obtain ⟨hb, hbs⟩ := readValue_eq_iff.mp hbase
    obtain ⟨hs, hss⟩ := readValue_eq_iff.mp ((BitVec.add_right_inj _).mp hsum)
    exact ⟨hb, hs, List.forall_mem_cons.mpr ⟨hbs, List.forall_mem_singleton.mpr hss⟩⟩
  · rintro ⟨hb, hs, hshift⟩
    obtain ⟨hbs, hss⟩ := List.forall_mem_cons.mp hshift
    have hbase := readValue_eq_iff.mpr ⟨hb, hbs⟩
    have hsize := readValue_eq_iff.mpr ⟨hs, hss size List.mem_cons_self⟩
    refine ⟨_, hrun, hbase, ?_⟩
    show readValue shl base + readValue shl size = base + size
    rw [hbase, hsize]

namespace Dtb

/-- A memory node, its property `reg` and the value, from 0x1000 on. -/
def memoryNode (base size : Ulong64) : Bytes :=
  Lib.place 0x1000 (memoryAt ++ [0] ++ (reg ++ [0]) ++ (be64 base ++ be64 size))

/-- The name of the node. -/
def memoryName : CString := ⟨memoryAt, memoryAt_nonzero⟩

/-- The call for the property. -/
def memoryCall : PropCall := ⟨0x1000, 0x1008, 0x100C, 16⟩

theorem holds_memoryNode (base size : Ulong64) :
    Holds (memoryNode base size) memoryCall.name memoryName.encode ∧
    Holds (memoryNode base size) memoryCall.pname (reg ++ [0]) ∧
    Holds (memoryNode base size) memoryCall.propVal (be64 base ++ be64 size) := by
  have h : Holds (memoryNode base size) 0x1000
      (memoryAt ++ [0] ++ (reg ++ [0]) ++ (be64 base ++ be64 size)) :=
    Lib.holds_place (by show 28 ≤ _; decide)
  obtain ⟨h, hval⟩ := holds_append.mp h
  obtain ⟨hname, hpname⟩ := holds_append.mp h
  exact ⟨hname, hpname, hval⟩

end Dtb

/-- 128 MiB from 0x80000000 on, with the shift that the machine makes. -/
theorem memory_reg_low : ∃ p', handleProp id (memoryNode 0x80000000 0x8000000) 0 .zero memoryCall =
      .ok (.ok, p') ∧ p'.minaddr = 0x80000000 ∧ p'.maxaddr = 0x80000000 + 0x8000000 := by
  obtain ⟨hname, hpname, hval⟩ := holds_memoryNode 0x80000000 0x8000000
  exact (memory_reg_iff id 0 .zero hname List.prefix_rfl hpname rfl hval).mpr
    ⟨by decide, by decide, fun x _ => BitVec.or_self⟩

/-- Memory from 4 GiB on: whatever the shift gives, the record has another
base. -/
theorem memory_reg_high :
    Holds (memoryNode 0x100000000 0x40000000) memoryCall.propVal
      (be64 0x100000000 ++ be64 0x40000000) ∧
    ∀ (shl : Uint → Uint) (fuel : Nat) (p : Platform), ∃ p',
      handleProp shl (memoryNode 0x100000000 0x40000000) fuel p memoryCall = .ok (.ok, p') ∧
        p'.minaddr ≠ 0x100000000 := by
  obtain ⟨hname, hpname, hval⟩ := holds_memoryNode 0x100000000 0x40000000
  refine ⟨hval, fun shl fuel p => ?_⟩
  refine ⟨_, handleProp_memory hname List.prefix_rfl hpname rfl hval, ?_⟩
  intro h
  have hlt := toNat_readValue_lt shl 0x100000000
  have heq : readValue shl 0x100000000 = 0x100000000 := h
  rw [heq] at hlt
  exact absurd hlt (by decide)

end Xinu
