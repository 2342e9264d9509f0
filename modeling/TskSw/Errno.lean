import Mathlib.Data.Int.Notation

/-! Error numbers of `kern/errno.h`. -/
namespace TskSw

def eperm : Int := 1
def enoent : Int := 2
def esrch : Int := 3
def enxio : Int := 6
def ebadf : Int := 9
def eagain : Int := 11
def enomem : Int := 12
def ebusy : Int := 16
def eexist : Int := 17
def enodev : Int := 19
def einval : Int := 22

end TskSw
