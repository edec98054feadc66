import DisconnectedYfs.YFSOperations

/-! The handlers of `fuse.cc`. A handler is the tree of the operations of `yfs_client` that it
calls, with a branch for every result, and of the answers that it sends. FUSE has offsets and
sizes in 64 bits, the operations in 32. -/
namespace DisconnectedYfs.YFS.Fuse
open Std

inductive Errno where
  | eisdir | enetdown | eio | enosys | enoent | eexist | enotdir
deriving DecidableEq, Repr

/-- `fuse_reply_err`, which with 0 is a success; `fuse_reply_attr`, `_entry` and `_create` with the
number and `st_size`; and the other calls `fuse_reply_...`. -/
inductive Answer where
  | err (e : Errno)
  | success
  | attr (size : ℕ)
  | buf (data : Str)
  | write (size : ℕ)
  | entry (ino size : ℕ)
  | create (ino size : ℕ)
  | openFile
  | statfs
deriving DecidableEq, Repr

inductive Handler where
  | done
  | reply (a : Answer) (k : Handler)
  | call (op : Op) (k : Except YErr Out → Handler)

/-- The last answer. -/
def Handler.last (a : Answer) : Handler := .reply a .done

/-- `getattr` of `fuse.cc`, of which the size is kept; it is 0 for a directory. -/
def getattr (inum : ℕ) (k : Except YErr ℕ → Handler) : Handler :=
  .call (if isfile inum then .getfile inum else .getdir inum) (fun r =>
    match r with
    | .ok (.file info) => k (.ok info.size)
    | .ok _ => k (.ok 0)
    | .error e => k (.error e))

def fuseserverGetattr (ino : ℕ) : Handler :=
  getattr ino (fun r =>
    match r with
    | .ok size => .last (.attr size)
    | .error _ => .last (.err .enoent))

/-- The answer to a status other than `OK`. -/
def refusal : YErr → Answer
  | .disconnected => .err .enetdown
  | _ => .err .eio

/-- `setSize` is the bit `FUSE_SET_ATTR_SIZE` of `to_set`. After a failed `getattr` the request is
answered twice. -/
def fuseserverSetattr (ino stSize : ℕ) (setSize : Bool) : Handler :=
  if setSize = false then .last (.err .enosys)
  else if isfile ino = false then .last (.err .eisdir)
  else .call (.setattr ino (UInt32.ofNat stSize)) (fun r =>
    match r with
    | .error e => .last (refusal e)
    | .ok _ => getattr ino (fun r =>
      match r with
      | .ok size => .last (.attr size)
      | .error _ => .reply (.err .eio) (.last (.attr 0))))

/-- The answer to a directory, after which the handler goes on. -/
def refuseDir (ino : ℕ) (k : Handler) : Handler :=
  if isfile ino = false then .reply (.err .eisdir) k else k

/-- An error is followed by the second answer. -/
def fuseserverRead (ino size off : ℕ) : Handler :=
  refuseDir ino (.call (.read ino (UInt32.ofNat off) (UInt32.ofNat size)) (fun r =>
    match r with
    | .ok (.data buf) => .last (.buf buf)
    | .ok _ => .last (.buf [])
    | .error e => .reply (refusal e) (.last (.buf []))))

def fuseserverWrite (ino : ℕ) (buf : Str) (size off : ℕ) : Handler :=
  refuseDir ino (.call (.write ino buf (UInt32.ofNat off) (UInt32.ofNat size)) (fun r =>
    match r with
    | .ok _ => .last (.write size)
    | .error e => .reply (refusal e) (.last (.write size))))

/-- The number that an operation hands back. -/
def Out.number : Out → ℕ
  | .inum i => i
  | _ => 0

/-- The number of the new file and its size, or the status of `create` or of `getattr`. -/
def fuseserverCreatehelper (parent : ℕ) (name : Str) (k : Except YErr (ℕ × ℕ) → Handler) :
    Handler :=
  .call (.create parent name) (fun r =>
    match r with
    | .ok o => getattr (Out.number o) (fun r => k (r.map (fun size => (Out.number o, size))))
    | .error e => k (.error e))

/-- What `create` and `mknod` answer to a status other than `OK`. -/
def createRefusal : YErr → Answer
  | .exist => .err .eexist
  | _ => .err .enoent

def fuseserverCreate (parent : ℕ) (name : Str) : Handler :=
  fuseserverCreatehelper parent name (fun r =>
    match r with
    | .ok (i, size) => .last (.create i size)
    | .error e => .last (createRefusal e))

def fuseserverMknod (parent : ℕ) (name : Str) : Handler :=
  fuseserverCreatehelper parent name (fun r =>
    match r with
    | .ok (i, size) => .last (.entry i size)
    | .error e => .last (createRefusal e))

/-- What `lookup` answers to a status other than `OK`, also to that of `getattr`. -/
def lookupRefusal : YErr → Answer
  | .disconnected => .err .enetdown
  | _ => .err .enoent

def fuseserverLookup (parent : ℕ) (name : Str) : Handler :=
  .call (.lookup parent name) (fun r =>
    match r with
    | .ok o => getattr (Out.number o) (fun r =>
      match r with
      | .ok size => .last (.entry (Out.number o) size)
      | .error e => .last (lookupRefusal e))
    | .error e => .last (lookupRefusal e))

/-- `reply_buf_limited`. -/
def replyBufLimited (buf : Str) (off maxsize : ℕ) : Answer :=
  if off < buf.length then .buf ((buf.drop off).take maxsize) else .buf []

/-- `pack` is what `dirbuf_add` makes of all entries with functions of FUSE. -/
def fuseserverReaddir (pack : Dir → Str) (ino size off : ℕ) : Handler :=
  if isfile ino then .last (.err .enotdir)
  else .call (.getdirContents ino) (fun r =>
    match r with
    | .ok (.dir d) => .last (replyBufLimited (pack d) off size)
    | .ok _ => .last (.err .enotdir)
    | .error .disconnected => .last (.err .enetdown)
    | .error _ => .last (.err .enotdir))

def fuseserverOpen : Handler := .last .openFile

def fuseserverMkdir (parent : ℕ) (name : Str) : Handler :=
  .call (.mkdir parent name) (fun r =>
    match r with
    | .ok o => getattr (Out.number o) (fun r =>
      match r with
      | .ok size => .last (.entry (Out.number o) size)
      | .error _ => .last (.err .enosys))
    | .error .exist => .last (.err .eexist)
    | .error .disconnected => .last (.err .enetdown)
    | .error _ => .last (.err .eio))

def fuseserverUnlink (parent : ℕ) (name : Str) : Handler :=
  .call (.unlink parent name) (fun r =>
    match r with
    | .ok _ => .last .success
    | .error .noent => .last (.err .enoent)
    | .error .disconnected => .last (.err .enetdown)
    | .error _ => .last (.err .eio))

def fuseserverStatfs : Handler := .last .statfs

/-- The requests that FUSE passes on, with their arguments. -/
inductive Req where
  | getattr (ino : ℕ)
  | setattr (ino stSize : ℕ) (setSize : Bool)
  | read (ino size off : ℕ)
  | write (ino : ℕ) (buf : Str) (size off : ℕ)
  | create (parent : ℕ) (name : Str)
  | mknod (parent : ℕ) (name : Str)
  | lookup (parent : ℕ) (name : Str)
  | readdir (pack : Dir → Str) (ino size off : ℕ)
  | openFile
  | mkdir (parent : ℕ) (name : Str)
  | unlink (parent : ℕ) (name : Str)
  | statfs

def Req.handler : Req → Handler
  | .getattr ino => fuseserverGetattr ino
  | .setattr ino stSize setSize => fuseserverSetattr ino stSize setSize
  | .read ino size off => fuseserverRead ino size off
  | .write ino buf size off => fuseserverWrite ino buf size off
  | .create parent name => fuseserverCreate parent name
  | .mknod parent name => fuseserverMknod parent name
  | .lookup parent name => fuseserverLookup parent name
  | .readdir pack ino size off => fuseserverReaddir pack ino size off
  | .openFile => fuseserverOpen
  | .mkdir parent name => fuseserverMkdir parent name
  | .unlink parent name => fuseserverUnlink parent name
  | .statfs => fuseserverStatfs

end DisconnectedYfs.YFS.Fuse
