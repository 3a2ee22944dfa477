import Mathlib.Init

/-!
# The ABI's error codes

`enum lnxrm_errno` of `include/abi/lnxrm_abi.h`. Kernel functions return
an `int`: `0` or a count on success, one of these on failure, and callers
test the sign or compare with `0`.
-/

namespace Lnxrm

namespace Errno

/-- `LNXRM_EFAIL` -/
def efail : Int := -1

/-- `LNXRM_ENOENT` -/
def enoent : Int := -2

/-- `LNXRM_EIO` -/
def eio : Int := -5

/-- `LNXRM_ENOEXEC` -/
def enoexec : Int := -8

/-- `LNXRM_EBADF` -/
def ebadf : Int := -9

/-- `LNXRM_ENOMEM` -/
def enomem : Int := -12

/-- `LNXRM_EACCES` -/
def eacces : Int := -13

/-- `LNXRM_EFAULT` -/
def efault : Int := -14

/-- `LNXRM_EEXIST` -/
def eexist : Int := -17

/-- `LNXRM_ENOTDIR` -/
def enotdir : Int := -20

/-- `LNXRM_EINVAL` -/
def einval : Int := -22

/-- `LNXRM_EMFILE` -/
def emfile : Int := -24

/-- `LNXRM_ENOSPC` -/
def enospc : Int := -28

/-- `LNXRM_ENOTEMPTY` -/
def enotempty : Int := -39

end Errno

end Lnxrm
