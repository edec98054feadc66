import DisconnectedYfs.YFSLockClient
import DisconnectedYfs.TraceSystem

/-! The file system operations of `yfs_client.cc`. An operation is the tree of the calls it makes
on the lock client and on the extent cache, in the source's order, with a branch for every answer;
what the calls do is left to those who run the tree. -/
namespace DisconnectedYfs.YFS
open Std

/-- The values of `extent_protocol::xxstatus` other than `OK`. -/
inductive ExtErr where
  | rpcerr | noent | ioerr
deriving DecidableEq, Repr

/-- The values of `yfs_client::xxstatus` other than `OK`. -/
inductive YErr where
  | rpcerr | noent | ioerr | exist | disconnected
deriving DecidableEq, Repr

def ext2yfs : ExtErr → YErr
  | .noent => .noent
  | .rpcerr => .rpcerr
  | .ioerr => .ioerr

/-- `yfs_client::fileinfo`. -/
structure FileInfo where
  size : ℕ
  atime : Option UInt32
  mtime : UInt32
  ctime : UInt32
  version : UInt32
deriving DecidableEq, Repr

/-- What `getdir` fills in of `yfs_client::dirinfo`. -/
structure DirInfo where
  atime : Option UInt32
  mtime : UInt32
  ctime : UInt32
deriving DecidableEq, Repr

/-- What an operation hands back beside `OK`. -/
inductive Out where
  | done
  | inum (i : ℕ)
  | file (fin : FileInfo)
  | dirinfo (din : DirInfo)
  | dir (d : Dir)
  | data (buf : Str)

/-- `throw` is the exception that `extract_dirent` lets escape. `alloc` is the loop in which
`create` and `mkdir` look for an unused inode number; `mask` is what they or into the number. -/
inductive Prog where
  | ret (r : Except YErr Out)
  | throw
  | acquire (lid : ℕ) (k : Status → Prog)
  | release (lid : ℕ) (k : Prog)
  | get (eid : ℕ) (k : Except ExtErr Str → Prog)
  | getattr (eid : ℕ) (k : Except ExtErr Attr → Prog)
  | put (eid : ℕ) (buf : Str) (k : Except ExtErr Unit → Prog)
  | rename (eid : ℕ) (name : Str) (k : Except ExtErr Unit → Prog)
  | remove (eid : ℕ) (k : Except ExtErr Unit → Prog)
  | alloc (mask : ℕ) (k : ℕ → Prog)

/-- A call together with its answer, or two values of `rand()`. -/
inductive Act where
  | acquire (lid : ℕ) (r : Status)
  | release (lid : ℕ)
  | get (eid : ℕ) (r : Except ExtErr Str)
  | getattr (eid : ℕ) (r : Except ExtErr Attr)
  | put (eid : ℕ) (buf : Str) (r : Except ExtErr Unit)
  | rename (eid : ℕ) (name : Str) (r : Except ExtErr Unit)
  | remove (eid : ℕ) (r : Except ExtErr Unit)
  | draw (a b : ℕ)

/-- One round of the loop, with the number `i`: it is kept, under its lock, if there is no such
extent. -/
def Prog.tryInum (mask : ℕ) (k : ℕ → Prog) (i : ℕ) : Prog :=
  .acquire i (fun _ => .get i (fun r =>
    match r with
    | .error .noent => k i
    | _ => .release i (.alloc mask k)))

/-- The operation goes on after its next call was answered. -/
def Prog.step : Prog → Act → Option Prog
  | .acquire lid k, .acquire l r => if l = lid then some (k r) else none
  | .release lid k, .release l => if l = lid then some k else none
  | .get eid k, .get l r => if l = eid then some (k r) else none
  | .getattr eid k, .getattr l r => if l = eid then some (k r) else none
  | .put eid buf k, .put l b r => if l = eid ∧ b = buf then some (k r) else none
  | .rename eid name k, .rename l n r => if l = eid ∧ n = name then some (k r) else none
  | .remove eid k, .remove l r => if l = eid then some (k r) else none
  | .alloc mask k, .draw a b => some (.tryInum mask k (randNum a b ||| mask))
  | _, _ => none

/-- The steps, one for each kind of call. -/
inductive Prog.Steps : Prog → Act → Prog → Prop
  | acquire {l k} (r : Status) : Steps (.acquire l k) (.acquire l r) (k r)
  | release {l k} : Steps (.release l k) (.release l) k
  | get {l k} (r : Except ExtErr Str) : Steps (.get l k) (.get l r) (k r)
  | getattr {l k} (r : Except ExtErr Attr) : Steps (.getattr l k) (.getattr l r) (k r)
  | put {l buf k} (r : Except ExtErr Unit) : Steps (.put l buf k) (.put l buf r) (k r)
  | rename {l name k} (r : Except ExtErr Unit) : Steps (.rename l name k) (.rename l name r) (k r)
  | remove {l k} (r : Except ExtErr Unit) : Steps (.remove l k) (.remove l r) (k r)
  | draw {mask k} (a b : ℕ) :
      Steps (.alloc mask k) (.draw a b) (.tryInum mask k (randNum a b ||| mask))

theorem step_steps {p p' : Prog} {a : Act} (h : p.step a = some p') : p.Steps a p' := by
  unfold Prog.step at h
  split at h
  case h_8 =>
    cases h
    exact .draw _ _
  case h_9 => cases h
  case h_5 | h_6 =>
    split_ifs at h with heq
    cases h
    obtain ⟨rfl,rfl⟩ := heq
    constructor
  all_goals
    split_ifs at h with heq
    cases h
    cases heq
    constructor

/-- The beginning of an operation: `acquire`, and `DISCONNECTED` if that says so. -/
def Prog.lock (lid : ℕ) (k : Prog) : Prog :=
  .acquire lid (fun s => if s = .disconnected then .ret (.error .disconnected) else k)

/-- `get` on an extent whose lock is held; an error ends the operation. -/
def Prog.fetch (eid : ℕ) (k : Str → Prog) : Prog :=
  .get eid (fun r =>
    match r with
    | .error e => .release eid (.ret (.error (ext2yfs e)))
    | .ok buf => k buf)

/-- The constructor of `yfs_dir`. -/
def Prog.parse (buf : Str) (k : Dir → Prog) : Prog :=
  match parseDir buf with
  | none => .throw
  | some d => k d

namespace YfsClient

def fileinfo (a : Attr) : FileInfo :=
  { size := a.size.toNat, atime := a.atime, mtime := a.mtime, ctime := a.ctime,
    version := a.version }

def getfileHelper (ino : ℕ) (k : Except YErr FileInfo → Prog) : Prog :=
  .getattr ino (fun r =>
    match r with
    | .ok a => k (.ok (fileinfo a))
    | .error e => k (.error (ext2yfs e)))

def getfile (ino : ℕ) : Prog :=
  .lock ino (getfileHelper ino (fun r => .release ino (.ret (r.map .file))))

def getdir (ino : ℕ) : Prog :=
  .lock ino (.getattr ino (fun r => .release ino (.ret (
    match r with
    | .ok a => .ok (.dirinfo { atime := a.atime, mtime := a.mtime, ctime := a.ctime })
    | .error e => .error (ext2yfs e)))))

/-- The common beginning of `create`, `mkdir`, `unlink`, `lookup` and `getdir_contents`. -/
def openDir (p : ℕ) (k : Dir → Prog) : Prog :=
  .lock p (.fetch p (fun buf => .parse buf k))

/-- The last part of `create`, with the number `i` that the loop has found. -/
def addFile (p : ℕ) (name : Str) (d : Dir) (i : ℕ) : Prog :=
  let leave (r : Except YErr Out) : Prog := .release i (.release p (.ret r))
  .put i [] (fun r =>
    match r with
    | .error e => leave (.error (ext2yfs e))
    | .ok _ => .rename i name (fun r =>
      match r with
      | .error e => leave (.error (ext2yfs e))
      | .ok _ => .put p (Dir.toStr (d.insert name i)) (fun r =>
        match r with
        | .error e => .remove i (fun _ => leave (.error (ext2yfs e)))
        | .ok _ => leave (.ok (.inum i)))))

def create (p : ℕ) (name : Str) : Prog :=
  openDir p (fun d =>
    if (d[name]?).isSome then .release p (.ret (.error .exist))
    else .alloc 0x80000000 (addFile p name d))

/-- The last part of `mkdir`. -/
def addDir (p : ℕ) (name : Str) (d : Dir) (i : ℕ) : Prog :=
  let leave (r : Except YErr Out) : Prog := .release i (.release p (.ret r))
  .put i [58] (fun r =>
    match r with
    | .error e => leave (.error (ext2yfs e))
    | .ok _ => .put p (Dir.toStr (d.insert name i)) (fun r =>
      match r with
      | .error e => .remove i (fun _ => leave (.error (ext2yfs e)))
      | .ok _ => leave (.ok (.inum i))))

def mkdir (p : ℕ) (name : Str) : Prog :=
  openDir p (fun d =>
    if (d[name]?).isSome then .release p (.ret (.error .exist))
    else .alloc 0 (addDir p name d))

/-- The part of `unlink` that has found the file `f`. The extent is removed after both locks have
been released. -/
def dropFile (p : ℕ) (name : Str) (d : Dir) (f : ℕ) : Prog :=
  .acquire f (fun s =>
    if s = .disconnected then .release p (.ret (.error .disconnected))
    else .put p (Dir.toStr (d.erase name)) (fun r =>
      match r with
      | .error e => .release f (.release p (.ret (.error (ext2yfs e))))
      | .ok _ => .release f (.release p (.remove f (fun r => .ret (
          match r with
          | .error e => .error (ext2yfs e)
          | .ok _ => .ok .done))))))

def unlink (p : ℕ) (name : Str) : Prog :=
  openDir p (fun d =>
    match d[name]? with
    | none => .release p (.ret (.error .noent))
    | some f =>
      if isfile f then dropFile p name d f
      else .release p (.ret (.error .ioerr)))

def lookup (p : ℕ) (name : Str) : Prog :=
  openDir p (fun d =>
    match d[name]? with
    | none => .release p (.ret (.error .noent))
    | some f => .release p (.ret (.ok (.inum f))))

def getdirContents (ino : ℕ) : Prog :=
  openDir ino (fun d => .release ino (.ret (.ok (.dir d))))

/-- What `setattr` puts, if it does, for a file with contents `buf` whose size is said to be
`size`. -/
def resized (buf : Str) (size : ℕ) (newSize : UInt32) : Option Str :=
  let n := newSize.toNat
  let dataSize := size % 2^32
  if n = 0 then some []
  else if n < dataSize then some (buf.take n)
  else if dataSize < n then some (buf ++ List.replicate (n-dataSize) 0)
  else none

def setattr (ino : ℕ) (newSize : UInt32) : Prog :=
  .lock ino (.fetch ino (fun buf => getfileHelper ino (fun r =>
    match r with
    | .error e => .release ino (.ret (.error e))
    | .ok fin =>
      match resized buf fin.size newSize with
      | some buf' => .put ino buf' (fun r => .release ino (.ret (
          match r with
          | .error e => .error (ext2yfs e)
          | .ok _ => .ok .done)))
      | none => .release ino (.ret (.ok .done)))))

/-- What `read` finds at `off`, for a buffer that is empty at the start. -/
def slice (buf : Str) (off size : UInt32) : Str :=
  if off.toNat < buf.length then (buf.drop off.toNat).take size.toNat else []

def read (ino : ℕ) (off size : UInt32) : Prog :=
  .lock ino (.fetch ino (fun buf => .release ino (.ret (.ok (.data (slice buf off size))))))

/-- The string that `write` builds from the old contents. -/
def patched (buf data : Str) (off : UInt32) : Str :=
  let kept := buf.take off.toNat
  let padded :=
    if buf.length < off.toNat then kept ++ List.replicate (off.toNat-buf.length) 0 else kept
  let written := padded ++ data
  if written.length < buf.length then written ++ buf.drop written.length else written

/-- `buf` is the memory that the pointer of the source stands for. -/
def write (ino : ℕ) (buf : Str) (off size : UInt32) : Prog :=
  .lock ino (.fetch ino (fun old =>
    .put ino (patched old (buf.take size.toNat) off) (fun r => .release ino (.ret (
      match r with
      | .error e => .error (ext2yfs e)
      | .ok _ => .ok .done)))))

/-- The root directory that the constructor of `yfs_client` makes, from `"tmp 2:"`. -/
def rootStr : Str := ((parseDir [116, 109, 112, 32, 50, 58]).map Dir.toStr).getD []

/-- The constructor of `yfs_client`, after it has connected to the servers. -/
def mount : Prog :=
  .acquire 1 (fun _ => .get 1 (fun r =>
    match r with
    | .error .noent => .acquire 2 (fun _ => .put 1 rootStr (fun _ => .put 2 [58] (fun _ =>
        .release 2 (.release 1 (.ret (.ok .done))))))
    | _ => .release 1 (.ret (.ok .done))))

end YfsClient

/-- The public operations with their arguments, and the constructor. -/
inductive Op where
  | mount
  | getfile (ino : ℕ)
  | getdir (ino : ℕ)
  | create (p : ℕ) (name : Str)
  | mkdir (p : ℕ) (name : Str)
  | unlink (p : ℕ) (name : Str)
  | lookup (p : ℕ) (name : Str)
  | getdirContents (ino : ℕ)
  | setattr (ino : ℕ) (newSize : UInt32)
  | read (ino : ℕ) (off size : UInt32)
  | write (ino : ℕ) (buf : Str) (off size : UInt32)
deriving DecidableEq, Repr

def Op.prog : Op → Prog
  | .mount => YfsClient.mount
  | .getfile ino => YfsClient.getfile ino
  | .getdir ino => YfsClient.getdir ino
  | .create p name => YfsClient.create p name
  | .mkdir p name => YfsClient.mkdir p name
  | .unlink p name => YfsClient.unlink p name
  | .lookup p name => YfsClient.lookup p name
  | .getdirContents ino => YfsClient.getdirContents ino
  | .setattr ino newSize => YfsClient.setattr ino newSize
  | .read ino off size => YfsClient.read ino off size
  | .write ino buf off size => YfsClient.write ino buf off size

end DisconnectedYfs.YFS
