import Mathlib

/-! What the three kinds of objects of `src/ipc/sysvipc.c` share: error codes, permissions and
identifiers. The calls begin where `user_ptr_ok` has passed, with the bytes that user pointers name
as arguments; time stamps are left out. -/

namespace Gnos.Ipc

/-- The errors of the calls; `msg` is `E_MSG`, the `ENOMSG` of `msgrcv`. -/
inductive Err where
  | inval | acces | perm | exist | noent | nfile | mfile | nomem | again | idrm | toobig
  | msg | range
  deriving DecidableEq

structure Caller where
  pid : ℕ
  euid : ℕ
  egid : ℕ
  deriving DecidableEq

structure Perm where
  uid : ℕ := 0
  gid : ℕ := 0
  cuid : ℕ := 0
  cgid : ℕ := 0
  mode : ℕ := 0
  deriving DecidableEq

inductive Want where
  | read | write
  deriving DecidableEq

/-- `ipc_permitted`: true for 0, false for `-E_ACCES`. -/
def permitted (p : Caller) (perm : Perm) (want : Want) : Bool :=
  if p.euid = 0 then true
  else
    let bit := match want with
      | .read => 4
      | .write => 2
    let owner := p.euid = perm.uid || p.euid = perm.cuid
    let inGrp := p.egid = perm.gid || p.egid = perm.cgid
    let eff := if owner then perm.mode >>> 6 else if inGrp then perm.mode >>> 3 else perm.mode
    eff &&& bit ≠ 0

/-- `ID_SHIFT`: an identifier is a sequence number over a slot of this many bits. -/
def idShift : ℕ := 8

/-- `make_id`, for a sequence number of 16 bits. -/
def makeId (seq slot : ℕ) : ℕ := seq <<< idShift ||| slot

end Gnos.Ipc
