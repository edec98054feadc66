import DisconnectedYfs.YFSExtentServer

/-! Directory contents (`yfs_dir` in `yfs_client.cc`): a map from names to inode numbers, written
as `name inum:` for each entry. -/
namespace DisconnectedYfs.YFS
open Std

/-- `yfs_dir::dir_`. -/
abbrev Dir := ExtTreeMap Str ℕ

/-- `yfs_client::filename`: the decimal digits. -/
def filename (inum : ℕ) : Str := (Nat.toDigits 10 inum).map (fun c => UInt8.ofNat c.toNat)

/-- `isspace` in the C locale. -/
def isSpace (c : UInt8) : Bool := c == 32 || (9 ≤ c && c ≤ 13)

def isDigit (c : UInt8) : Bool := 48 ≤ c && c ≤ 57

/-- `yfs_client::n2i`: what `>>` into an `unsigned long long` reads, 0 when there is no digit and
the largest value when there are too many. -/
def n2i (s : Str) : ℕ :=
  let s := s.dropWhile isSpace
  let neg := s.head? == some 45
  let digits := (if neg || s.head? == some 43 then s.tail else s).takeWhile isDigit
  let v := digits.foldl (fun v c => 10*v+(c.toNat-48)) 0
  if 2^64 ≤ v then 2^64-1
  else if neg then (2^64-v)%2^64
  else v

/-- `yfs_dir::extract_dirent`; `none` is the exception `substr` throws when there is no space.
The number is passed on as a C string, which ends at the first zero byte. -/
def extractDirent (s : Str) : Option (Str × ℕ) :=
  if (32 : UInt8) ∈ s then
    some (s.takeWhile (· != 32), n2i ((s.dropWhile (· != 32)).takeWhile (· != 0)))
  else none

/-- The loop of the constructor: one entry for each `:`, what follows the last is ignored. -/
def parseEntries : Str → Str → Dir → Option Dir
  | [], _, d => some d
  | c :: cs, piece, d =>
    if c = 58 then
      match extractDirent piece with
      | some e => parseEntries cs [] (d.insert e.1 e.2)
      | none => none
    else parseEntries cs (piece ++ [c]) d

/-- `yfs_dir::yfs_dir(std::string)`. -/
def parseDir (s : Str) : Option Dir := if 1 < s.length then parseEntries s [] ∅ else some ∅

/-- `yfs_dir::to_string`. -/
def Dir.toStr (d : Dir) : Str :=
  if d.isEmpty then [58]
  else d.toList.flatMap (fun e => e.1 ++ [32] ++ filename e.2 ++ [58])

/-- `yfs_dir::add` and `yfs_dir::rem`. -/
def Dir.add (d : Dir) (name : Str) (inum : ℕ) : Dir := d.insert name inum

def Dir.rem (d : Dir) (name : Str) : Dir := d.erase name

/-- The search loop of `extent_user::make_copy` for a name that is not in the directory: the name
itself, then `name.1`, `name.2` and so on. -/
def freshName (d : Dir) (base : Str) : ℕ → ℕ → Str → Option Str
  | 0, _, _ => none
  | fuel+1, i, name =>
    if (d[name]?).isSome then freshName d base fuel (i+1) (base ++ [46] ++ filename i)
    else some name

/-- The directory part of `extent_user::make_copy`: the name it chooses for the copy and the new
contents of the directory. `none` is an exception while parsing. -/
def addCopy (dir base : Str) (inum : ℕ) : Option (Str × Str) :=
  (parseDir dir).bind (fun d =>
    (freshName d base (d.size+1) 1 base).map (fun name =>
      (name, Dir.toStr (d.insert name inum))))

/-- A second copy of `a` in a directory that already has `a` is called `a.1`. -/
example : addCopy [97, 32, 53, 58] [97] 7 =
    some ([97, 46, 49], [97, 32, 53, 58, 97, 46, 49, 32, 55, 58]) := by decide +kernel

end DisconnectedYfs.YFS
