import Xinu.System.Platform
import Xinu.System.Sort

/-!
# `Xinu.System.Strings`: string search and bounded copies

`strstr` of `libxc`, with the `strncmp` that it calls (`strlen` is in
`Xinu.System.Dtb`), and `strncpy` with the stores to its destination
(`strnlen` is in `Xinu.System.Platform`). These functions take two strings
by pointers. The memory that is used through the first pointer and the one
that is used through the second are two arguments. They are the same in a
running program. Two different ones, each with nothing but its own string,
show which string an access belongs to.

`strncmp` and `strncpy` count up to their limits. The loop of `strstr`
goes on to the end of the haystack and takes the number of its iterations
as `fuel`.
-/

namespace Xinu.Strings

variable (m1 m2 : Bytes)

/-- `strncmp(s1, s2, n)`. Each round reads both strings: the difference is
returned also where `s1` has ended. -/
def strncmp : Ulong64 → Ulong64 → Nat → Except Fault Int
  | _, _, 0 => return 0
  | s1, s2, n + 1 => do
    let c ← m1.byte s1
    let d ← m2.byte s2
    if c = 0 ∨ c ≠ d then return c.toNat - d.toNat else strncmp (s1 + 1) (s2 + 1) n

/-- The loop of `strstr`. There is no result for `NULL`. -/
def strstrLoop (needle needleLen : Ulong64) : Nat → Ulong64 → Except Fault (Option Ulong64)
  | 0, _ => .error .nontermination
  | fuel + 1, haystack => do
    if (← m1.byte haystack) ≠ 0 then
      if (← strncmp m1 m2 haystack needle needleLen.toNat) = 0 then return some haystack
      else strstrLoop needle needleLen fuel (haystack + 1)
    else return none

/-- `strstr(haystack, needle)`. -/
def strstr (fuel : Nat) (haystack needle : Ulong64) : Except Fault (Option Ulong64) := do
  let needleLen ← m2.strlen fuel needle
  strstrLoop m1 m2 needle needleLen fuel haystack

/-- The second loop of `strncpy`, for the last `n` bytes. -/
def strncpyFill : Nat → Ulong64 → Bytes → Except Fault Bytes
  | 0, _, m => .ok m
  | n + 1, dest, m => do
    let m ← m.store dest 0
    strncpyFill n (dest + 1) m

/-- The first loop of `strncpy`, with `n` bytes up to the limit, and what
comes after it. The condition reads `src[i]` before it compares `i` with
the limit. -/
def strncpyLoop : Nat → Ulong64 → Ulong64 → Bytes → Except Fault Bytes
  | 0, _, src, m => do
    let _ ← m2.byte src
    return m
  | n + 1, dest, src, m => do
    let c ← m2.byte src
    if c ≠ 0 then
      let m ← m.store dest c
      strncpyLoop n (dest + 1) (src + 1) m
    else strncpyFill (n + 1) dest m

/-- `strncpy(dest, src, n)`, with the memory that it leaves. The two
arrays do not overlap. -/
def strncpy (dest src : Ulong64) (n : Nat) : Except Fault Bytes := strncpyLoop m2 n dest src m1

end Xinu.Strings
