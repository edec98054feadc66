import DisconnectedYfs.YFSFileContents
import DisconnectedYfs.YFSHandlers

/-! The handlers of `fuse.cc` that pass offsets and sizes on. FUSE has them in 64 bits, the
operations of `yfs_client` in 32. -/
namespace DisconnectedYfs.YFS
open Std

/-- What an operation reads and writes while it has its locks: the cache of its client and the
extents of the server. -/
structure Extents where
  cache : Cache
  table : Table
  now : UInt32

/-- `extent_client_cache::get`, `getattr` and `rename`: an extent that is not in the cache is
loaded. -/
def Extents.access (x : Extents) (l : ℕ) (op : Access) : Except ExtErr Entry × Extents :=
  let found :=
    match x.cache[l]? with
    | some _ => some x.cache
    | none => (x.table[l]?).map (fun f => x.cache.load l f.buf f.a)
  match found with
  | none => (.error .noent, x)
  | some m =>
    let m' := op.finish m l x.now
    match m'[l]? with
    | some e => (.ok e, { x with cache := m' })
    | none => (.error .noent, { x with cache := m' })

/-- An operation from its first to its last call, with every lock granted. It has no result if its
process ends, or if it has to draw a number. -/
def Prog.eval : Prog → Extents → Option (Except YErr Out × Extents)
  | .ret r, x => some (r, x)
  | .throw, _ | .alloc _ _, _ => none
  | .acquire _ k, x => (k .ok).eval x
  | .release _ k, x => k.eval x
  | .get l k, x => (k ((x.access l .get).1.map (·.extent))).eval (x.access l .get).2
  | .getattr l k, x => (k ((x.access l .getattr).1.map (·.attr))).eval (x.access l .getattr).2
  | .put l buf k, x => (k (.ok ())).eval { x with cache := x.cache.put l buf x.now }
  | .rename l name k, x =>
    (k ((x.access l (.rename name)).1.map (fun _ => ()))).eval (x.access l (.rename name)).2
  | .remove l k, x => (x.cache.remove l).bind (fun m => (k (.ok ())).eval { x with cache := m })

/-- A handler whose operations are run from the first to the last. -/
def Fuse.Handler.eval : Fuse.Handler → Extents → Option (List Fuse.Answer × Extents)
  | .done, x => some ([], x)
  | .reply a k, x => (k.eval x).map (fun (answers, x') => (a :: answers, x'))
  | .call op k, x => (op.prog.eval x).bind (fun (r, x') => (k r).eval x')

/-- The extent as the client sees it. -/
def Extents.content (x : Extents) (l : ℕ) : Option Str :=
  match x.cache[l]? with
  | some e => some e.extent
  | none => (x.table[l]?).map FInfo.buf

def Extents.name (x : Extents) (l : ℕ) : Str :=
  match x.cache[l]? with
  | some e => e.attr.name
  | none => ((x.table[l]?).map (·.a.name)).getD []

structure Extents.Sized (x : Extents) : Prop where
  copy : x.cache.Sized
  extent : x.table.Sized

section
variable {x : Extents} {l f : ℕ} {b : Str}

/-- What an extent that exists is read as. -/
theorem access_found (op : Access) (hs : x.Sized) (hb : x.content l = some b)
    (hop : ∀ name, op ≠ .rename name) :
    ∃ e x', x.access l op = (.ok e, x') ∧ e.extent = b ∧ x'.Sized ∧ x'.cache[l]? = some e ∧
      e.attr.name = x.name l := by
  -- the cache in which the entry is found
  have hfound : ∃ m : Cache, ∃ e, m.Sized ∧ m[l]? = some e ∧ e.extent = b ∧ e.attr.name = x.name l ∧
      (match x.cache[l]? with
        | some _ => some x.cache
        | none => (x.table[l]?).map (fun f => x.cache.load l f.buf f.a)) = some m := by
    unfold Extents.content at hb
    unfold Extents.name
    rcases hc : x.cache[l]? with _ | e
    · rw [hc] at hb
      obtain ⟨g,hg,rfl⟩ := Option.map_eq_some_iff.mp hb
      refine ⟨x.cache.load l g.buf g.a, ⟨false, g.buf, g.a⟩, ?_, ?_, rfl, ?_, ?_⟩
      · exact sized_insert hs.copy (hs.extent l g hg)
      · simp [Cache.load]
      · simp [hg]
      · simp [hg]
    · rw [hc] at hb
      exact ⟨x.cache, e, hs.copy, hc, Option.some.inj hb, rfl, rfl⟩
  obtain ⟨m,e,hm,he,rfl,hname,hfound⟩ := hfound
  obtain ⟨e',he',hext,-⟩ := (finish_entry op m l l x.now).2 e he
  have hname' : e'.attr.name = e.attr.name := by
    cases op with
    | get =>
      simp only [Access.finish, cache_touch_getElem, he] at he'
      cases he'
      rfl
    | getattr =>
      rw [show (Access.getattr.finish m l x.now)[l]? = m[l]? from rfl, he] at he'
      cases he'
      rfl
    | rename name => exact absurd rfl (hop name)
  refine ⟨e', { x with cache := op.finish m l x.now }, ?_, hext, ⟨sized_finish op hm, hs.extent⟩,
    he', hname'.trans hname⟩
  unfold Extents.access
  rw [hfound]
  simp only [he']

/-- What is known of an extent in the cache. -/
theorem cached_content {e : Entry} (he : x.cache[l]? = some e) :
    x.content l = some e.extent ∧ x.name l = e.attr.name := by
  simp [Extents.content, Extents.name, he]

theorem eval_put {e : Entry} (hs : x.Sized) (he : x.cache[l]? = some e) (buf : Str) :
    Extents.Sized { x with cache := x.cache.put l buf x.now } ∧
      ∃ e', (x.cache.put l buf x.now)[l]? = some e' ∧ e'.extent = buf ∧
        e'.attr.name = e.attr.name := by
  obtain ⟨e',he',-,hext,-,-,hname⟩ := cache_put_self x.cache l buf x.now
  rw [he] at hname
  exact ⟨⟨sized_put buf hs.copy, hs.extent⟩, e', he', hext, hname⟩

theorem eval_read (hs : x.Sized) (hb : x.content f = some b) (off size : UInt32) :
    ∃ x', x'.content f = some b ∧
    (YfsClient.read f off size).eval x = some (.ok (.data (YfsClient.slice b off size)), x') := by
  obtain ⟨e,x',hx,rfl,-,he,-⟩ := access_found .get hs hb (by simp)
  refine ⟨x', (cached_content he).1, ?_⟩
  simp [YfsClient.read, Prog.lock, Prog.fetch, Prog.eval, hx, Except.map]

theorem eval_write (hs : x.Sized) (hb : x.content f = some b) (buf : Str) (off size : UInt32) :
    ∃ x' e, x'.Sized ∧ x'.cache[f]? = some e ∧ e.attr.name = x.name f ∧
      e.extent = YfsClient.patched b (buf.take size.toNat) off ∧
      (YfsClient.write f buf off size).eval x = some (.ok .done, x') := by
  obtain ⟨e,x₁,hx,rfl,hs₁,he,hname⟩ := access_found .get hs hb (by simp)
  obtain ⟨hs₂,e',he',hext,hname'⟩ :=
    eval_put hs₁ he (YfsClient.patched e.extent (buf.take size.toNat) off)
  refine ⟨_, e', hs₂, he', hname'.trans hname, hext, ?_⟩
  simp [YfsClient.write, Prog.lock, Prog.fetch, Prog.eval, hx, Except.map]

theorem eval_setattr (hs : x.Sized) (hb : x.content f = some b) (n : UInt32) :
    ∃ x' e, x'.Sized ∧ x'.cache[f]? = some e ∧ e.attr.name = x.name f ∧
      e.extent = (YfsClient.resized b (byteSize b).toNat n).getD b ∧
      (YfsClient.setattr f n).eval x = some (.ok .done, x') := by
  obtain ⟨e,x₁,hx₁,rfl,hs₁,he,hname⟩ := access_found .get hs hb (by simp)
  obtain ⟨hb₁,hn₁⟩ := cached_content he
  obtain ⟨e',x₂,hx₂,hext,hs₂,he',hname'⟩ := access_found .getattr hs₁ hb₁ (by simp)
  have hsize : e'.attr.size = byteSize e.extent := by
    rw [← hext]
    exact hs₂.copy f e' he'
  have hn : e'.attr.name = x.name f := hname'.trans (hn₁.trans hname)
  rcases hr : YfsClient.resized e.extent (byteSize e.extent).toNat n with _ | b'
  · refine ⟨x₂, e', hs₂, he', hn, hext, ?_⟩
    simp [YfsClient.setattr, YfsClient.getfileHelper, YfsClient.fileinfo, Prog.lock, Prog.fetch,
      Prog.eval, hx₁, hx₂, hsize, hr, Except.map]
  · obtain ⟨hs₃,e'',he'',hext'',hname''⟩ := eval_put hs₂ he' b'
    refine ⟨_, e'', hs₃, he'', hname''.trans hn, hext'', ?_⟩
    simp [YfsClient.setattr, YfsClient.getfileHelper, YfsClient.fileinfo, Prog.lock, Prog.fetch,
      Prog.eval, hx₁, hx₂, hsize, hr, Except.map]

theorem eval_getfile (hs : x.Sized) (hb : x.content f = some b) : ∃ x' fin, x'.content f = some b ∧
    (YfsClient.getfile f).eval x = some (.ok (.file fin), x') := by
  obtain ⟨e,x',hx,rfl,-,he,-⟩ := access_found .getattr hs hb (by simp)
  refine ⟨x', YfsClient.fileinfo e.attr, (cached_content he).1, ?_⟩
  simp [YfsClient.getfile, YfsClient.getfileHelper, Prog.lock, Prog.eval, hx, Except.map]

end

namespace Fuse

/-- A request on a file, with the numbers that FUSE passes. -/
inductive Request where
  | setattr (stSize : ℕ)
  | read (size off : ℕ)
  | write (size off : ℕ)
deriving DecidableEq, Repr

/-- The number of bytes that come with it. -/
def Request.bytes : Request → ℕ
  | .write size _ => size
  | _ => 0

def Request.handler (ino : ℕ) (buf : Str) (q : Request) :
    Extents → Option (List Answer × Extents) :=
  match q with
  | .setattr stSize => (fuseserverSetattr ino stSize true).eval
  | .read size off => (fuseserverRead ino size off).eval
  | .write size off => (fuseserverWrite ino buf size off).eval

/-- The request has been carried out at exactly that offset and size, on a file that held `b` and
now holds `b'`. -/
def Request.Carried (b buf : Str) (answers : List Answer) (b' : Option Str) : Request → Prop
  | .setattr stSize => (∃ size, answers = [.attr size]) ∧ b' = some (PaddedArray.resize b stSize)
  | .read size off => answers = [.buf (PaddedArray.read b off size)] ∧ b' = some b
  | .write size off => answers = [.write size] ∧ b' = some (PaddedArray.write b off buf)

/-- It is carried out so, or answered with an error and the file left as it was. -/
def Request.Honoured (q : Request) (ino : ℕ) (x : Extents) (b buf : Str) : Prop :=
  ∃ answers x', q.handler ino buf x = some (answers, x') ∧
    (q.Carried b buf answers (x'.content ino) ∨
      (∃ e rest, answers = .err e :: rest) ∧ x'.content ino = some b)

/-- The numbers fit into 32 bits, or what is cut off makes no difference for a file of this
length. -/
def Request.Fits (length : ℕ) : Request → Prop
  | .setattr stSize => stSize = 0 ∨ stSize % 2^32 ≠ 0 ∧
      if stSize % 2^32 < length % 2^32 then stSize < 2^32 else stSize / 2^32 = length / 2^32
  | .read size off =>
      (off < 2^32 ∧ (size < 2^32 ∨ length ≤ off+size % 2^32)) ∨
        ((size = 0 ∨ length ≤ off) ∧ (size % 2^32 = 0 ∨ length ≤ off % 2^32))
  | .write size off => (off < 2^32 ∧ size < 2^32) ∨ (size = 0 ∧ off ≤ length)

instance (length : ℕ) : (q : Request) → Decidable (q.Fits length)
  | .setattr stSize => inferInstanceAs (Decidable (stSize = 0 ∨ stSize % 2^32 ≠ 0 ∧
      if stSize % 2^32 < length % 2^32 then stSize < 2^32 else stSize / 2^32 = length / 2^32))
  | .read size off => inferInstanceAs (Decidable ((off < 2^32 ∧ (size < 2^32 ∨
      length ≤ off+size % 2^32)) ∨ ((size = 0 ∨ length ≤ off) ∧
        (size % 2^32 = 0 ∨ length ≤ off % 2^32))))
  | .write size off => inferInstanceAs (Decidable ((off < 2^32 ∧ size < 2^32) ∨
      (size = 0 ∧ off ≤ length)))

section
variable {x : Extents} {ino : ℕ} {b buf : Str}

theorem setattr_handled (hf : isfile ino = true) (hs : x.Sized) (hb : x.content ino = some b)
    (stSize : ℕ) :
    ∃ size x', (fuseserverSetattr ino stSize true).eval x = some ([.attr size], x') ∧
      x'.content ino =
        some ((YfsClient.resized b (byteSize b).toNat (UInt32.ofNat stSize)).getD b) := by
  obtain ⟨x₁,e,hs₁,he,-,hext,h₁⟩ := eval_setattr hs hb (UInt32.ofNat stSize)
  obtain ⟨x₂,fin,hb₂,h₂⟩ := eval_getfile hs₁ (cached_content he).1
  refine ⟨fin.size, x₂, ?_, hext ▸ hb₂⟩
  simp [fuseserverSetattr, getattr, Handler.eval, Handler.last, hf, Op.prog, h₁, h₂]

theorem read_handled (hf : isfile ino = true) (hs : x.Sized) (hb : x.content ino = some b)
    (size off : ℕ) :
    ∃ x', x'.content ino = some b ∧ (fuseserverRead ino size off).eval x =
      some ([.buf (YfsClient.slice b (UInt32.ofNat off) (UInt32.ofNat size))], x') := by
  obtain ⟨x',hb',h⟩ := eval_read hs hb (UInt32.ofNat off) (UInt32.ofNat size)
  refine ⟨x', hb', ?_⟩
  simp [fuseserverRead, refuseDir, Handler.eval, Handler.last, hf, Op.prog, h]

theorem write_handled (hf : isfile ino = true) (hs : x.Sized) (hb : x.content ino = some b)
    (buf : Str) (size off : ℕ) :
    ∃ x', (fuseserverWrite ino buf size off).eval x = some ([.write size], x') ∧ x'.content ino =
      some (YfsClient.patched b (buf.take (UInt32.ofNat size).toNat) (UInt32.ofNat off)) := by
  obtain ⟨x',e,-,he,-,hext,h⟩ := eval_write hs hb buf (UInt32.ofNat off) (UInt32.ofNat size)
  refine ⟨x', ?_, hext ▸ (cached_content he).1⟩
  simp [fuseserverWrite, refuseDir, Handler.eval, Handler.last, hf, Op.prog, h]

/-- When the narrowed size is the size that was asked for. -/
theorem resized_exact_iff (b : Str) (stSize : ℕ) :
    (YfsClient.resized b (byteSize b).toNat (UInt32.ofNat stSize)).getD b =
      PaddedArray.resize b stSize ↔ (Request.setattr stSize).Fits b.length := by
  have hlen : ∀ c, c = PaddedArray.resize b stSize → c.length = stSize := by
    rintro c rfl
    exact PaddedArray.length_resize b stSize
  have hsize : (byteSize b).toNat = b.length % 2^32 := UInt32.toNat_ofNat'
  have hn : (UInt32.ofNat stSize).toNat = stSize % 2^32 := UInt32.toNat_ofNat'
  unfold YfsClient.resized Request.Fits
  simp only [hsize, hn, Nat.mod_mod]
  by_cases h0 : stSize % 2^32 = 0
  · rw [if_pos h0]
    constructor
    · intro h
      have := hlen _ h
      simp at this
      omega
    · rintro (rfl | ⟨h,-⟩)
      · rw [PaddedArray.resize_eq]
        simp
      · exact absurd h0 h
  rw [if_neg h0]
  by_cases hlt : stSize % 2^32 < b.length % 2^32
  · rw [if_pos hlt, if_pos hlt]
    constructor
    · intro h
      have := hlen _ h
      simp at this
      omega
    · intro h
      have hS : stSize % 2^32 = stSize := by omega
      rw [PaddedArray.resize_eq, hS, Nat.sub_eq_zero_of_le (by omega)]
      simp
  rw [if_neg hlt, if_neg hlt]
  by_cases hgt : b.length % 2^32 < stSize % 2^32
  · rw [if_pos hgt]
    constructor
    · intro h
      have := hlen _ h
      simp at this
      omega
    · intro h
      have hpad : stSize % 2^32-b.length % 2^32 = stSize-b.length := by omega
      rw [PaddedArray.resize_eq, List.take_of_length_le (by omega), hpad]
      rfl
  · rw [if_neg hgt]
    constructor
    · intro h
      have := hlen _ h
      simp at this
      omega
    · intro h
      rw [PaddedArray.resize_eq, List.take_of_length_le (by omega),
        Nat.sub_eq_zero_of_le (by omega)]
      simp

theorem read_exact_iff (length size off : ℕ) :
    (∀ b : Str, b.length = length →
      YfsClient.slice b (UInt32.ofNat off) (UInt32.ofNat size) = PaddedArray.read b off size) ↔
      (Request.read size off).Fits length := by
  have hoff : (UInt32.ofNat off).toNat = off % 2^32 := UInt32.toNat_ofNat'
  have hsize : (UInt32.ofNat size).toNat = size % 2^32 := UInt32.toNat_ofNat'
  simp only [slice_eq, hoff, hsize]
  unfold Request.Fits
  constructor
  · intro h
    -- a file that has its only one at the offset
    have hmark := h ((List.replicate length 0).set off 1) (by simp)
    have hlen := congrArg List.length hmark
    simp only [PaddedArray.length_read, List.length_set, List.length_replicate] at hlen
    by_cases hempty : size = 0 ∨ length ≤ off
    · right
      refine ⟨hempty, ?_⟩
      omega
    · left
      have hone : (PaddedArray.read ((List.replicate length (0 : UInt8)).set off 1) off size)[0]? =
          some 1 := by
        rw [PaddedArray.read_eq, List.getElem?_take, if_pos (by omega), List.getElem?_drop,
          List.getElem?_set]
        simp
        omega
      have hsame : off = off % 2^32+0 := by
        by_contra hne
        rw [← hmark, PaddedArray.read_eq, List.getElem?_take, if_pos (by omega), List.getElem?_drop,
          List.getElem?_set, if_neg hne, List.getElem?_replicate] at hone
        split_ifs at hone
        simp at hone
      omega
  · rintro (⟨ho,hs⟩ | ⟨hexact,hcut⟩) b rfl
    · rw [Nat.mod_eq_of_lt ho, PaddedArray.read_eq, PaddedArray.read_eq]
      rcases hs with hs | hs
      · rw [Nat.mod_eq_of_lt hs]
      · have hdrop : (b.drop off).length ≤ size % 2^32 := by
          rw [List.length_drop]
          omega
        rw [List.take_of_length_le hdrop,
          List.take_of_length_le (hdrop.trans (Nat.mod_le size _))]
    · have hnil : ∀ o z, z = 0 ∨ b.length ≤ o → PaddedArray.read b o z = [] := by
        intro o z hz
        apply List.eq_nil_of_length_eq_zero
        rw [PaddedArray.length_read]
        omega
      rw [hnil _ _ hcut, hnil _ _ hexact]

theorem write_exact_iff (length size off : ℕ) :
    (∀ b buf : Str, b.length = length → buf.length = size →
      YfsClient.patched b (buf.take (UInt32.ofNat size).toNat) (UInt32.ofNat off) =
        PaddedArray.write b off buf) ↔ (Request.write size off).Fits length := by
  have hoff : (UInt32.ofNat off).toNat = off % 2^32 := UInt32.toNat_ofNat'
  have hsize : (UInt32.ofNat size).toNat = size % 2^32 := UInt32.toNat_ofNat'
  simp only [patched_eq, hoff, hsize]
  unfold Request.Fits
  constructor
  · intro h
    -- ones are written to a file of zeros
    have hones := h (List.replicate length 0) (List.replicate size 1) (by simp) (by simp)
    have hlen := congrArg List.length hones
    simp only [PaddedArray.length_write, List.length_take, List.length_replicate] at hlen
    by_cases hz : size = 0
    · omega
    left
    -- the last of them is where the last of the narrowed request is
    have hlast : (PaddedArray.write (List.replicate length 0) off
      (List.replicate size (1 : UInt8)))[off+size-1]? =
        some 1 := by
      have hi : off+size-1 < (PaddedArray.write (List.replicate length 0) off
          (List.replicate size (1 : UInt8))).length := by
        simp
        omega
      rw [List.getElem?_eq_getElem hi, PaddedArray.getElem_write, if_pos (by simp; omega),
        List.getD_eq_getElem _ _ (by simp; omega)]
      simp
    have hin : off+size-1 < off % 2^32+size % 2^32 := by
      by_contra hout
      rw [← hones] at hlast
      obtain ⟨hi,hval⟩ := List.getElem?_eq_some_iff.mp hlast
      rw [PaddedArray.getElem_write, if_neg (by simp; omega), List.getD_eq_getElem?_getD,
        List.getElem?_replicate] at hval
      split_ifs at hval <;> simp at hval
    have hle := Nat.mod_le off (2^32)
    have hle' := Nat.mod_le size (2^32)
    omega
  · rintro (⟨ho,hs⟩ | ⟨rfl,ho⟩) b buf rfl hbuf
    · rw [Nat.mod_eq_of_lt ho, Nat.mod_eq_of_lt hs, List.take_of_length_le (by omega)]
    · obtain rfl := List.eq_nil_of_length_eq_zero hbuf
      have hle := Nat.mod_le off (2^32)
      have hsame : ∀ o ≤ b.length, PaddedArray.write b o [] = b := by
        intro o ho
        rw [PaddedArray.write_eq, Nat.sub_eq_zero_of_le ho]
        simp
      rw [List.take_nil, hsame _ (hle.trans ho), hsame _ ho]

/-- The requests that come with these numbers, on files of a length, are honoured exactly if their
numbers fit. -/
theorem honoured_iff (hf : isfile ino = true) (hs : x.Sized) (hb : x.content ino = some b)
    (q : Request) : q.Honoured ino x b buf ↔
      match q with
      | .setattr stSize => (YfsClient.resized b (byteSize b).toNat (UInt32.ofNat stSize)).getD b =
          PaddedArray.resize b stSize
      | .read size off => YfsClient.slice b (UInt32.ofNat off) (UInt32.ofNat size) =
          PaddedArray.read b off size
      | .write size off => YfsClient.patched b (buf.take (UInt32.ofNat size).toNat)
          (UInt32.ofNat off) = PaddedArray.write b off buf := by
  unfold Request.Honoured
  cases q with
  | setattr stSize =>
    obtain ⟨size,x',hx',hc⟩ := setattr_handled hf hs hb stSize
    simp only [Request.handler, hx', Request.Carried]
    constructor
    · rintro ⟨answers,y,heq,⟨-,h⟩ | ⟨⟨e,rest,h⟩,-⟩⟩
      · cases heq
        exact Option.some.inj (hc.symm.trans h)
      · cases heq
        cases h
    · intro h
      exact ⟨_, x', rfl, Or.inl ⟨⟨size, rfl⟩, by rw [hc, h]⟩⟩
  | read size off =>
    obtain ⟨x',hc,hx'⟩ := read_handled hf hs hb size off
    simp only [Request.handler, hx', Request.Carried]
    constructor
    · rintro ⟨answers,y,heq,⟨h,-⟩ | ⟨⟨e,rest,h⟩,-⟩⟩
      · cases heq
        simpa using h
      · cases heq
        cases h
    · intro h
      exact ⟨_, x', rfl, Or.inl ⟨by rw [h], hc⟩⟩
  | write size off =>
    obtain ⟨x',hx',hc⟩ := write_handled hf hs hb buf size off
    simp only [Request.handler, hx', Request.Carried]
    constructor
    · rintro ⟨answers,y,heq,⟨-,h⟩ | ⟨⟨e,rest,h⟩,-⟩⟩
      · cases heq
        exact Option.some.inj (hc.symm.trans h)
      · cases heq
        cases h
    · intro h
      exact ⟨_, x', rfl, Or.inl ⟨rfl, by rw [hc, h]⟩⟩

/-- The server has the extent. -/
def stored (ino : ℕ) (b : Str) : Extents :=
  { cache := ∅, now := 0,
    table := (∅ : Table).insert ino
      { buf := b, a := { mtime := 0, ctime := 0, size := byteSize b, version := 1, name := [] } } }

theorem stored_sized (ino : ℕ) (b : Str) :
    (stored ino b).Sized ∧ (stored ino b).content ino = some b := by
  refine ⟨⟨fun l e h => ?_, fun l g h => ?_⟩, ?_⟩
  · simp [stored] at h
  · simp only [stored, table_getElem_insert] at h
    split_ifs at h
    · cases h
      rfl
    · simp at h
  · simp [Extents.content, stored]

/-- Whatever the bytes are, the request is honoured exactly if its numbers fit. -/
theorem requests_honoured_iff (hf : isfile ino = true) (length : ℕ) (q : Request) :
    (∀ x b buf, x.Sized → x.content ino = some b → b.length = length → buf.length = q.bytes →
      q.Honoured ino x b buf) ↔ q.Fits length := by
  cases q with
  | setattr stSize =>
    constructor
    · intro h
      obtain ⟨hs,hb⟩ := stored_sized ino (List.replicate length 0)
      have hfits := (resized_exact_iff _ _).mp
        ((honoured_iff hf hs hb _).mp (h _ _ [] hs hb List.length_replicate rfl))
      rw [List.length_replicate] at hfits
      exact hfits
    · rintro hfits x b buf hs hb rfl -
      exact (honoured_iff hf hs hb _).mpr ((resized_exact_iff b stSize).mpr hfits)
  | read size off =>
    rw [← read_exact_iff]
    constructor
    · intro h b hlen
      obtain ⟨hs,hb⟩ := stored_sized ino b
      exact (honoured_iff hf hs hb _).mp (h _ _ [] hs hb hlen rfl)
    · intro h x b buf hs hb hlen _
      exact (honoured_iff hf hs hb _).mpr (h b hlen)
  | write size off =>
    rw [← write_exact_iff]
    constructor
    · intro h b buf hlen hbuf
      obtain ⟨hs,hb⟩ := stored_sized ino b
      exact (honoured_iff hf hs hb _).mp (h _ _ buf hs hb hlen hbuf)
    · intro h x b buf hs hb hlen hbuf
      exact (honoured_iff hf hs hb _).mpr (h b buf hlen hbuf)

/-- A file of one byte that is written at 10. -/
theorem small_write_honoured : (Request.write 3 10).Fits 1 ∧
    (Request.write 3 10).Honoured 0x80000005 (stored 0x80000005 [65]) [65] [120, 121, 122] := by
  have hfits : (Request.write 3 10).Fits 1 := by decide
  obtain ⟨hs,hb⟩ := stored_sized 0x80000005 [65]
  exact ⟨hfits, (requests_honoured_iff (by decide) 1 _).mpr hfits _ _ _ hs hb rfl rfl⟩

/-- To truncate a file to 2^32 empties it, and a byte that is written at 2^32 goes to the
beginning. -/
theorem large_requests_reduced :
    (∃ answers x, Request.handler 0x80000005 [] (.setattr (2^32)) (stored 0x80000005 [65]) =
      some (answers, x) ∧ x.content 0x80000005 = some []) ∧
    ¬ (Request.setattr (2^32)).Honoured 0x80000005 (stored 0x80000005 [65]) [65] [] ∧
    ¬ (Request.write 1 (2^32)).Honoured 0x80000005 (stored 0x80000005 [65]) [65] [66] := by
  obtain ⟨hs,hb⟩ := stored_sized 0x80000005 [65]
  refine ⟨?_, ?_, ?_⟩
  · obtain ⟨size,x,hx,hc⟩ := setattr_handled (by decide) hs hb (2^32)
    exact ⟨_, x, hx, hc⟩
  · rw [honoured_iff (by decide) hs hb]
    intro h
    have hfits := (resized_exact_iff _ _).mp h
    revert hfits
    decide
  · rw [honoured_iff (by decide) hs hb]
    intro h
    have hlen := congrArg List.length h
    rw [PaddedArray.length_write] at hlen
    revert hlen
    decide

end

end Fuse

end DisconnectedYfs.YFS
