import Mathlib.Tactic.Ring

/-!
# Error numbers, machine words and page requests

What the system calls share: the error numbers of `include/linux/errno.h` that
the modelled calls return, the conversions between the C integer types, and the
outcome of a request for kernel pages.  A call that returns `-errno` or a value
is an `Except Errno _` here.
-/

namespace CosmoRT

/-- The error numbers the modelled calls return. -/
inductive Errno where
  | EPERM | ENOENT | ESRCH | EINTR | EIOError | E2BIG | ENOEXEC | EBADF | ECHILD | EAGAIN | ENOMEM
  | EACCES | EFAULT | EBUSY | EEXIST
  | ENODEV | EXDEV | ENAMETOOLONG | EISDIR | EFBIG | EROFS | ETXTBSY | ENXIO | ENOTEMPTY
  | ENOTDIR | EINVAL | EMFILE | ENOSPC | EPIPE | EDEADLK | ENOLCK | ELOOP | EMSGSIZE
  | ENOSYS | EPROTONOSUPPORT | EADDRINUSE | EISCONN | ENOTCONN | ECONNREFUSED | ERESTARTSYS
  deriving DecidableEq, Repr

/-- The value of a 32-bit `int` computation: two's complement wrap-around. -/
def int32 (x : ℤ) : ℤ := Int.bmod x (2 ^ 32)

theorem int32_of_range {x : ℤ} (h0 : -2 ^ 31 ≤ x) (h : x < 2 ^ 31) : int32 x = x :=
  Int.bmod_eq_of_le (by omega) (by omega)

/-- The value of a signed 64-bit computation. -/
def int64 (x : ℤ) : ℤ := Int.bmod x (2 ^ 64)

/-- The conversion `(size_t)x` of a signed value. -/
def sizeT (x : ℤ) : ℕ := (x % 2 ^ 64).toNat

theorem sizeT_of_nonneg {x : ℤ} (h0 : 0 ≤ x) (h : x < 2 ^ 64) : sizeT x = x.toNat := by
  rw [sizeT, Int.emod_eq_of_lt h0 h]

/-- `pages_alloc(n)` as its callers see it: refused for `n ≤ 0`, for more pages
than the largest buddy order holds, and when memory is out. -/
def pagesAllocOk (pages : ℤ) (mem : Bool) : Bool :=
  decide (0 < pages) && decide (pages ≤ 512) && mem

/-- `user_ok` of `uaccess.h`: the range lies below `0x800000000000`.  A sum that wraps at
`2^64` fails the source's last comparison, and here the one with the bound. -/
def userOk (addr len : ℕ) : Bool :=
  decide (addr < 0x800000000000) && decide (addr + len ≤ 0x800000000000)

/-- An argument that points to user memory: `NULL`, an address that cannot be accessed,
or one whose contents can be copied. -/
inductive UserPtr (α : Type) where
  | null
  | fault
  | val (a : α)
  deriving DecidableEq, Repr

end CosmoRT
