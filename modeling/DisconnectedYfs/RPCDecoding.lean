import DisconnectedYfs.RPCRoundTrip

/-! What decoding takes from the buffer, whatever the buffer holds, and what it leaves of the old
value of its destination. -/
namespace DisconnectedYfs.RPC

/-- A call of `rawbyte`, or of `rawbytes` with its length, at a read position: whether bytes were
taken, and `_ok` afterwards. -/
inductive Fetch where
  | byte (index : ℕ) (taken ok : Bool)
  | bytes (index n : ℕ) (taken ok : Bool)
deriving DecidableEq, Repr

/-- All bytes are taken from positions below `sz`, or none is and `_ok` is false. -/
def Fetch.Sound (sz : ℕ) : Fetch → Prop
  | .byte i taken ok => if taken then i+1 ≤ sz else ok = false
  | .bytes i n taken ok => if taken then i+n ≤ sz else ok = false

/-- The sum that `rawbytes` compares does not wrap around. -/
def Fetch.Fits : Fetch → Prop
  | .byte _ _ _ => True
  | .bytes i n _ _ => i+n < 2^32

instance (sz : ℕ) : DecidablePred (Fetch.Sound sz)
  | .byte i taken ok => inferInstanceAs (Decidable (if taken then i+1 ≤ sz else ok = false))
  | .bytes i n taken ok => inferInstanceAs (Decidable (if taken then i+n ≤ sz else ok = false))

instance : DecidablePred Fetch.Fits
  | .byte _ _ _ => inferInstanceAs (Decidable True)
  | .bytes i n _ _ => inferInstanceAs (Decidable (i+n < 2^32))

namespace Unmarshall

def byteFetch (u : Unmarshall) : Fetch := .byte u.ind (u.ind < u.sz) (rawbyte u).2.ok

def bytesFetch (n : UInt32) (u : Unmarshall) : Fetch :=
  .bytes u.ind n.toNat ((u.ind+n.toNat) % 2^32 ≤ u.sz) (rawbytes [] n u).2.ok

/-- `n` calls of `rawbyte`. -/
def fetchBytes : ℕ → Unmarshall → List Fetch
  | 0, _ => []
  | n+1, u => u.byteFetch :: fetchBytes n (rawbyte u).2

def afterBytes : ℕ → Unmarshall → Unmarshall
  | 0, u => u
  | n+1, u => afterBytes n (rawbyte u).2

/-- The length is read first, and the bytes if that went well. -/
def fetchString (u : Unmarshall) : List Fetch :=
  fetchBytes 4 u ++ if (shrUInt u).2.ok then [bytesFetch (shrUInt u).1 (shrUInt u).2] else []

end Unmarshall

open Unmarshall OrderedMap

/-- A loop whose body makes these calls and leaves the object so. -/
def fetchLoop (fetch : Unmarshall → List Fetch) (next : Unmarshall → Unmarshall) :
    ℕ → Unmarshall → List Fetch
  | 0, _ => []
  | n+1, u => fetch u ++ fetchLoop fetch next n (next u)

/-- The calls that `operator>>` makes. -/
def Ty.fetches : Ty → Unmarshall → List Fetch
  | .bool, u | .char, u | .uchar, u => fetchBytes 1 u
  | .short, u | .ushort, u => fetchBytes 2 u
  | .int, u | .uint, u => fetchBytes 4 u
  | .ulonglong, u => fetchBytes 8 u
  | .string, u => fetchString u
  | .attr, u => fetchBytes 20 u ++ fetchString (afterBytes 20 u)
  | .vector t, u => fetchBytes 4 u ++
      fetchLoop t.fetches (fun u => (t.shr t.sem.fresh u).2) (shrUInt u).1.toNat (shrUInt u).2
  | .map k v, u => fetchBytes 4 u ++
      fetchLoop (fun u => k.fetches u ++ v.fetches (k.shr k.sem.fresh u).2)
        (fun u => (v.shr v.sem.fresh (k.shr k.sem.fresh u).2).2) (shrUInt u).1.toNat (shrUInt u).2

def fetchesAll : List Ty → Unmarshall → List Fetch
  | [], _ => []
  | t :: ts, u => t.fetches u ++ fetchesAll ts (t.shr t.sem.fresh u).2

def HeaderKind.fetches : HeaderKind → Unmarshall → List Fetch
  | .req, u => fetchBytes 20 { u with ind := rpcSz }
  | .reply, u => fetchBytes 8 { u with ind := rpcSz }

/-- The calls of a receiver that unpacks the header and reads variables of these types. -/
def messageFetches (kind : HeaderKind) (ts : List Ty) (u : Unmarshall) : List Fetch :=
  kind.fetches u ++ fetchesAll ts (unpackHeader kind u).2

/-- From `u` the calls lead to `u'`. Only the two header functions move the read position
themselves. -/
inductive Traces : List Fetch → Unmarshall → Unmarshall → Prop where
  | done (u : Unmarshall) : Traces [] u u
  | byte {l : List Fetch} {u u' : Unmarshall} (h : Traces l (rawbyte u).2 u') :
      Traces (u.byteFetch :: l) u u'
  | bytes {l : List Fetch} {u u' : Unmarshall} (s : Bytes) (n : UInt32)
      (h : Traces l (rawbytes s n u).2 u') : Traces (u.bytesFetch n :: l) u u'
  | seek {l : List Fetch} {u u' : Unmarshall} (i : ℕ) (h : Traces l { u with ind := i } u') :
      Traces l u u'

section
variable {α β : Type} {u u' u'' : Unmarshall} {l l' : List Fetch} {f : Fetch}

theorem Traces.append (h : Traces l u u') (h' : Traces l' u' u'') : Traces (l ++ l') u u'' := by
  induction h with
  | done => exact h'
  | byte _ ih => exact .byte (ih h')
  | bytes s n _ ih => exact .bytes s n (ih h')
  | seek i _ ih => exact .seek i (ih h')

theorem Traces.sz_eq (h : Traces l u u') : u'.sz = u.sz := by
  induction h with
  | done => rfl
  | @byte _ u _ _ ih =>
    have hbyte : (rawbyte u).2.sz = u.sz := by
      unfold rawbyte
      split_ifs <;> rfl
    exact ih.trans hbyte
  | @bytes _ u _ s n _ ih =>
    have hbytes : (rawbytes s n u).2.sz = u.sz := by
      unfold rawbytes
      split_ifs <;> rfl
    exact ih.trans hbytes
  | seek i _ ih => exact ih

theorem traces_fetchBytes (n : ℕ) (u : Unmarshall) :
    Traces (fetchBytes n u) u (afterBytes n u) := by
  induction n generalizing u with
  | zero => exact .done u
  | succ n ih => exact .byte (ih (rawbyte u).2)

theorem fetchBytes_add (m n : ℕ) (u : Unmarshall) :
    fetchBytes (m+n) u = fetchBytes m u ++ fetchBytes n (afterBytes m u) := by
  induction m generalizing u with
  | zero => rw [Nat.zero_add]; rfl
  | succ m ih =>
    rw [Nat.add_right_comm]
    exact congrArg _ (ih _)

theorem afterBytes_add (m n : ℕ) (u : Unmarshall) :
    afterBytes (m+n) u = afterBytes n (afterBytes m u) := by
  induction m generalizing u with
  | zero => rw [Nat.zero_add]; rfl
  | succ m ih =>
    rw [Nat.add_right_comm]
    exact ih _

/-- The operator makes these calls, from any position. -/
def Makes (x : Unpacking α) (fetch : Unmarshall → List Fetch) : Prop :=
  ∀ u, Traces (fetch u) u (x u).2

theorem Makes.bind {x : Unpacking α} {g : α → Unpacking β} {fetch fetch' : Unmarshall → List Fetch}
    (hx : Makes x fetch) (hg : ∀ a, Makes (g a) fetch') :
    Makes (x >>= g) (fun u => fetch u ++ fetch' (x u).2) :=
  fun u => (hx u).append (hg (x u).1 (x u).2)

theorem Makes.pure (a : α) : Makes (pure a) (fun _ => []) := fun u => .done u

theorem Makes.map {x : Unpacking α} {fetch : Unmarshall → List Fetch} (g : α → β)
    (hx : Makes x fetch) : Makes (g <$> x) fetch := hx

theorem Makes.congr {x : Unpacking α} {fetch fetch' : Unmarshall → List Fetch}
    (hx : Makes x fetch) (h : ∀ u, fetch u = fetch' u) : Makes x fetch' := by
  intro u
  rw [← h u]
  exact hx u

theorem makes_modify (i : ℕ) : Makes (modify ({ · with ind := i })) (fun _ => []) :=
  fun _ => .seek i (.done _)

theorem shrUInt_snd (u : Unmarshall) : (shrUInt u).2 = afterBytes 4 u := rfl

theorem shrInt_snd (u : Unmarshall) : (shrInt u).2 = afterBytes 4 u := rfl

theorem makes_shrUInt : Makes shrUInt (fetchBytes 4) := traces_fetchBytes 4

theorem makes_shrInt : Makes shrInt (fetchBytes 4) := traces_fetchBytes 4

theorem makes_shrString (s : Bytes) : Makes (shrString s) fetchString := by
  intro u
  apply (makes_shrUInt u).append
  change Traces _ _ ((if (shrUInt u).2.ok = true then rawbytes s (shrUInt u).1 else Pure.pure s)
    (shrUInt u).2).2
  split_ifs
  · exact .bytes s _ (.done _)
  · exact .done _

/-- A loop, if no value it carries decides what its body reads. -/
theorem makes_iterate {fetch : Unmarshall → List Fetch} {next : Unmarshall → Unmarshall}
    {body : α → Unpacking α} (hnext : ∀ x u, (body x u).2 = next u)
    (hbody : ∀ x, Makes (body x) fetch) (n : ℕ) (x : α) :
    Makes (iterate body n x) (fetchLoop fetch next n) := by
  induction n generalizing x with
  | zero => exact .pure x
  | succ n ih =>
    refine ((hbody x).bind (fun x' => ih x')).congr (fun u => ?_)
    rw [hnext x u]
    rfl

theorem makes_shrULongLong : Makes shrULongLong (fetchBytes 8) := by
  refine (makes_shrUInt.bind (fun _ => makes_shrUInt.bind (fun _ => .pure _))).congr (fun u => ?_)
  simp only [shrUInt_snd, List.append_nil, ← fetchBytes_add]

theorem makes_shrAttr (a : WireAttr) : Makes a.shr (Ty.fetches .attr) := by
  refine (makes_shrUInt.bind (fun _ => makes_shrUInt.bind (fun _ => makes_shrUInt.bind
    (fun _ => makes_shrUInt.bind (fun _ => makes_shrUInt.bind
      (fun _ => (makes_shrString a.name).bind (fun _ => .pure _))))))).congr (fun u => ?_)
  simp only [shrUInt_snd, List.append_nil, ← List.append_assoc, ← fetchBytes_add,
    ← afterBytes_add]
  rfl

theorem makes_shr (t : Ty) (x : t.Val) : Makes (t.shr x) t.fetches := by
  induction t with
  | bool | char | uchar => exact traces_fetchBytes 1
  | short | ushort => exact traces_fetchBytes 2
  | int => exact makes_shrInt
  | uint => exact makes_shrUInt
  | ulonglong => exact makes_shrULongLong
  | string => exact makes_shrString x
  | attr => exact makes_shrAttr x
  | vector t ih =>
    have hloop : ∀ n, Makes (iterate (fun (v : List t.Val) => do
        let z ← t.shr t.sem.fresh
        return v ++ [z]) n x) (fetchLoop t.fetches (fun u => (t.shr t.sem.fresh u).2) n) := by
      intro n
      apply makes_iterate
      · exact fun _ _ => rfl
      · exact fun _ => ih t.sem.fresh
    exact fun u => (makes_shrUInt u).append (hloop _ _)
  | map k v ihk ihv =>
    have hloop : ∀ n d, Makes (iterate (fun (d : OMap k.sem.order v.Val) => do
        let a ← k.shr k.sem.fresh
        let b ← v.shr v.sem.fresh
        return d.insert a b) n d)
        (fetchLoop (fun u => k.fetches u ++ v.fetches (k.shr k.sem.fresh u).2)
          (fun u => (v.shr v.sem.fresh (k.shr k.sem.fresh u).2).2) n) := by
      intro n d
      apply makes_iterate
      · exact fun _ _ => rfl
      · exact fun _ => (ihk k.sem.fresh).bind (fun _ => ihv v.sem.fresh)
    exact fun u => (makes_shrUInt u).append (hloop _ _ _)

theorem makes_shrAll (ts : List Ty) : Makes (shrAll ts) (fetchesAll ts) := by
  induction ts with
  | nil => exact .pure []
  | cons t ts ih => exact (makes_shr t t.sem.fresh).bind (fun _ => ih)

theorem makes_unpackHeader (kind : HeaderKind) : Makes (unpackHeader kind) kind.fetches := by
  cases kind with
  | req =>
    unfold unpackHeader unpackReqHeader unpack
    refine .map _ (((makes_modify _).bind (fun _ => makes_shrInt.bind (fun _ => makes_shrInt.bind
      (fun _ => makes_shrInt.bind (fun _ => makes_shrInt.bind (fun _ => makes_shrInt.bind
        (fun _ => (makes_modify _).bind (fun _ => .pure _)))))))).congr (fun u => ?_))
    simp only [shrInt_snd, List.append_nil, List.nil_append, ← List.append_assoc,
      ← fetchBytes_add, ← afterBytes_add]
    rfl
  | reply =>
    unfold unpackHeader unpackReplyHeader unpack
    refine .map _ (((makes_modify _).bind (fun _ => makes_shrInt.bind (fun _ => makes_shrInt.bind
      (fun _ => (makes_modify _).bind (fun _ => .pure _))))).congr (fun u => ?_))
    simp only [shrInt_snd, List.append_nil, List.nil_append, ← fetchBytes_add]
    rfl

/-- These are the calls that the receiver of a message makes. -/
theorem makes_readMessage (kind : HeaderKind) (ts : List Ty) :
    Makes (readMessage kind ts) (messageFetches kind ts) :=
  (makes_unpackHeader kind).bind (fun _ => makes_shrAll ts)

/-- `rawbyte` never takes a byte from outside. -/
theorem byteFetch_sound (u : Unmarshall) : u.byteFetch.Sound u.sz := by
  unfold byteFetch Fetch.Sound rawbyte
  by_cases h : u.ind < u.sz
  · simp only [h, decide_true, if_true]
    exact h
  · have hge : u.ind ≥ u.sz := by omega
    simp [h, hge]

theorem fetchBytes_sound {n : ℕ} (hf : f ∈ fetchBytes n u) : f.Sound u.sz ↔ f.Fits := by
  induction n generalizing u with
  | zero => cases hf
  | succ n ih =>
    rcases List.mem_cons.mp hf with rfl | hf
    · exact ⟨fun _ => trivial, fun _ => byteFetch_sound u⟩
    · have hs := (traces_fetchBytes 1 u).sz_eq
      have := ih hf
      rwa [show (rawbyte u).2.sz = u.sz from hs] at this

/-- Once the length could be read, the read position is inside the buffer. -/
theorem shrUInt_ind (h : (shrUInt u).2.ok = true) : (shrUInt u).2.ind ≤ u.sz := by
  have hbyte : ∀ v : Unmarshall, (rawbyte v).2.ok = true → (rawbyte v).2.ind ≤ v.sz := by
    intro v hv
    unfold rawbyte at hv ⊢
    split_ifs at hv ⊢
    exact Nat.lt_of_not_le (by assumption)
  have hlast := hbyte (afterBytes 3 u) h
  rw [(traces_fetchBytes 3 u).sz_eq] at hlast
  exact hlast

/-- Where the sum wraps, the length is accepted and the bytes are not there. -/
theorem bytesFetch_sound (n : UInt32) (hsz : u.sz < 2^31) (hi : u.ind ≤ u.sz) :
    (u.bytesFetch n).Sound u.sz ↔ (u.bytesFetch n).Fits := by
  have hn := n.toNat_lt
  unfold bytesFetch Fetch.Sound Fetch.Fits rawbytes
  by_cases hw : u.ind+n.toNat < 2^32
  · rw [Nat.mod_eq_of_lt hw]
    by_cases hle : u.ind+n.toNat ≤ u.sz
    · simp only [hle, decide_true, if_true, hw]
    · have hgt : u.ind+n.toNat > u.sz := by omega
      simp only [hle, decide_false, Bool.false_eq_true, if_false, hgt, if_true, hw]
  · have hmod : (u.ind+n.toNat) % 2^32 ≤ u.sz := by omega
    simp only [hmod, decide_true, if_true]
    constructor
    · intro h
      omega
    · intro h
      exact absurd h hw

theorem fetchString_sound (hsz : u.sz < 2^31) (hf : f ∈ fetchString u) : f.Sound u.sz ↔ f.Fits := by
  rcases List.mem_append.mp hf with hf | hf
  · exact fetchBytes_sound hf
  · split_ifs at hf with hok
    · rw [List.mem_singleton] at hf
      subst hf
      have hs := (makes_shrUInt u).sz_eq
      have hi := shrUInt_ind hok
      have := bytesFetch_sound (u := (shrUInt u).2) (shrUInt u).1 (by omega) (by omega)
      rwa [hs] at this
    · cases hf

theorem fetchLoop_sound {fetch : Unmarshall → List Fetch} {next : Unmarshall → Unmarshall} {n : ℕ}
    (hfetch : ∀ u f, u.sz < 2^31 → f ∈ fetch u → (f.Sound u.sz ↔ f.Fits))
    (hnext : ∀ u, (next u).sz = u.sz) (hsz : u.sz < 2^31) (hf : f ∈ fetchLoop fetch next n u) :
    f.Sound u.sz ↔ f.Fits := by
  induction n generalizing u with
  | zero => cases hf
  | succ n ih =>
    rcases List.mem_append.mp hf with hf | hf
    · exact hfetch u f hsz hf
    · have := ih (by rw [hnext]; exact hsz) hf
      rwa [hnext] at this

theorem fetches_sound (t : Ty) (hsz : u.sz < 2^31) (hf : f ∈ t.fetches u) :
    f.Sound u.sz ↔ f.Fits := by
  have hcount := (makes_shrUInt u).sz_eq
  induction t generalizing u f with
  | bool | char | uchar | short | ushort | int | uint | ulonglong => exact fetchBytes_sound hf
  | string => exact fetchString_sound hsz hf
  | attr =>
    rcases List.mem_append.mp hf with hf | hf
    · exact fetchBytes_sound hf
    · have hs := (traces_fetchBytes 20 u).sz_eq
      have := fetchString_sound (by rw [hs]; exact hsz) hf
      rwa [hs] at this
  | vector t ih =>
    rcases List.mem_append.mp hf with hf | hf
    · exact fetchBytes_sound hf
    · have := fetchLoop_sound (fun u f hsz hf => ih hsz hf (makes_shrUInt u).sz_eq)
        (fun u => (makes_shr t t.sem.fresh u).sz_eq) (by rw [hcount]; exact hsz) hf
      rwa [hcount] at this
  | map k v ihk ihv =>
    rcases List.mem_append.mp hf with hf | hf
    · exact fetchBytes_sound hf
    · have hboth : ∀ u f, u.sz < 2^31 →
          f ∈ k.fetches u ++ v.fetches (k.shr k.sem.fresh u).2 → (f.Sound u.sz ↔ f.Fits) := by
        intro u f hsz hf
        have hs := (makes_shr k k.sem.fresh u).sz_eq
        rcases List.mem_append.mp hf with hf | hf
        · exact ihk hsz hf (makes_shrUInt u).sz_eq
        · have := ihv (by rw [hs]; exact hsz) hf (makes_shrUInt _).sz_eq
          rwa [hs] at this
      have := fetchLoop_sound hboth (fun u =>
        (makes_shr v v.sem.fresh _).sz_eq.trans (makes_shr k k.sem.fresh u).sz_eq)
        (by rw [hcount]; exact hsz) hf
      rwa [hcount] at this

theorem fetchesAll_sound (ts : List Ty) (hsz : u.sz < 2^31) (hf : f ∈ fetchesAll ts u) :
    f.Sound u.sz ↔ f.Fits := by
  induction ts generalizing u with
  | nil => cases hf
  | cons t ts ih =>
    rcases List.mem_append.mp hf with hf | hf
    · exact fetches_sound t hsz hf
    · have hs := (makes_shr t t.sem.fresh u).sz_eq
      have := ih (by rw [hs]; exact hsz) hf
      rwa [hs] at this

theorem messageFetches_sound (kind : HeaderKind) (ts : List Ty) (hsz : u.sz < 2^31)
    (hf : f ∈ messageFetches kind ts u) : f.Sound u.sz ↔ f.Fits := by
  rcases List.mem_append.mp hf with hf | hf
  · cases kind with
    | req => exact fetchBytes_sound (u := { u with ind := rpcSz }) hf
    | reply => exact fetchBytes_sound (u := { u with ind := rpcSz }) hf
  · have hs := (makes_unpackHeader kind u).sz_eq
    have := fetchesAll_sound ts (by rw [hs]; exact hsz) hf
    rwa [hs] at this

/-- Every call takes its bytes from inside the buffer exactly if no length that is read makes
`_ind+n` wrap. -/
theorem decoding_in_bounds_iff (kind : HeaderKind) (ts : List Ty) (u : Unmarshall)
    (hsz : u.sz < 2^31) :
    Traces (messageFetches kind ts u) u (readMessage kind ts u).2 ∧
    ((∀ f ∈ messageFetches kind ts u, f.Sound u.sz) ↔ ∀ f ∈ messageFetches kind ts u, f.Fits) := by
  refine ⟨makes_readMessage kind ts u, ?_, ?_⟩
  · intro h f hf
    exact (messageFetches_sound kind ts hsz hf).mp (h f hf)
  · intro h f hf
    exact (messageFetches_sound kind ts hsz hf).mpr (h f hf)

end

/-- A request of which only a length of `0xffffffff` follows the header. -/
def hugeLength : Unmarshall := { buf := fun i => if i < rpcHeaderSz then 0 else 0xff, sz := 28 }

/-- A request with the string "hi" behind the header. -/
def shortString : Unmarshall :=
  { buf := fun i => [0, 0, 0, 2, 104, 105].getD (i-rpcHeaderSz) 0, sz := 30 }

theorem decoding_in_bounds_short :
    ((Ty.shr .string ([] : Bytes) { shortString with ind := rpcHeaderSz }).1 : Bytes) =
      [104, 105] ∧
    shortString.sz < 2^31 ∧ ∀ f ∈ messageFetches .req [.string] shortString, f.Sound 30 :=
  ⟨rfl, by decide,
    (decoding_in_bounds_iff .req [.string] shortString (by decide)).2.mpr (by decide +kernel)⟩

theorem decoding_out_of_bounds :
    hugeLength.sz < 2^31 ∧ ¬ ∀ f ∈ messageFetches .req [.string] hugeLength, f.Sound 28 := by
  decide +kernel

/-- `rpcc::call_m` with the result of `call1` and the buffer it filled: what it returns, and the
caller's variable. A reply that is not read to its end fails an assertion. -/
def callM (t : Ty) (intret : Int32) (u : Unmarshall) (r : t.Val) : Option (Int32 × t.Val) :=
  if intret < 0 then some (intret, r)
  else if (t.shr r u).2.okdone then some (intret, (t.shr r u).1)
  else none

/-- What a variable holds after a value was decoded into it. -/
def Ty.decoded : (t : Ty) → (old x : t.Val) → t.Val
  | .vector t, (old : List t.Val), (x : List t.Val) => (old ++ x : List t.Val)
  | .bool, _, x | .char, _, x | .uchar, _, x | .short, _, x | .ushort, _, x | .int, _, x
  | .uint, _, x | .ulonglong, _, x | .string, _, x | .attr, _, x | .map _ _, _, x => x

/-- The variable is not a vector, or an empty one. -/
def Ty.Resets : (t : Ty) → t.Val → Prop
  | .vector _, (old : List _) => old = []
  | .bool, _ | .char, _ | .uchar, _ | .short, _ | .ushort, _ | .int, _ | .uint, _
  | .ulonglong, _ | .string, _ | .attr, _ | .map _ _, _ => True

theorem reads_decoded (t : Ty) (old x : t.Val) :
    Reads (t.shr old) (t.encode x) (t.decoded old x) := by
  cases t with
  | bool => exact reads_shrBool x
  | char => exact reads_shrChar x
  | uchar => exact reads_shrUChar x
  | short => exact reads_shrShort x
  | ushort => exact reads_shrUShort x
  | int => exact reads_shrInt x
  | uint => exact reads_shrUInt x
  | ulonglong => exact reads_shrULongLong x
  | string => exact reads_shrString old x
  | attr => exact reads_shrAttr old x
  | vector t => exact reads_shr_vector_onto (reads_shr t) old x
  | map k v => exact reads_shr_map (reads_shr k) (reads_shr v) x old

theorem decoded_eq_iff (t : Ty) (old x : t.Val) : t.decoded old x = x ↔ t.Resets old := by
  cases t with
  | vector t => exact List.append_left_eq_self
  | bool | char | uchar | short | ushort | int | uint | ulonglong | string | attr | map =>
    exact ⟨fun _ => trivial, fun _ => rfl⟩

theorem callM_eq {t : Ty} {x : t.Val} {u : Unmarshall} (hu : Holds u (t.encode x))
    (hend : u.ind+(t.encode x).length = u.sz) {intret : Int32} (hret : ¬ intret < 0) (r : t.Val) :
    callM t intret u r = some (intret, t.decoded r x) := by
  unfold callM
  rw [if_neg hret, reads_decoded t r x u hu]
  simp [okdone, hu.ok, hend]

/-- Two variables of any contents both get the value, by `operator>>` and by a call, exactly if
neither is a vector that holds something. -/
theorem decoding_forgets_iff (t : Ty) (x old₁ old₂ : t.Val) (u : Unmarshall)
    (hu : Holds u (t.encode x)) :
    ((t.shr old₁ u).1 = x ∧ (t.shr old₂ u).1 = x ↔ t.Resets old₁ ∧ t.Resets old₂) ∧
    ∀ intret : Int32, ¬ intret < 0 → u.ind+(t.encode x).length = u.sz →
      (callM t intret u old₁ = some (intret, x) ∧ callM t intret u old₂ = some (intret, x) ↔
        t.Resets old₁ ∧ t.Resets old₂) := by
  refine ⟨?_, ?_⟩
  · rw [reads_decoded t old₁ x u hu, reads_decoded t old₂ x u hu]
    exact and_congr (decoded_eq_iff t old₁ x) (decoded_eq_iff t old₂ x)
  · intro intret hret hend
    rw [callM_eq hu hend hret, callM_eq hu hend hret, ← decoded_eq_iff t old₁ x,
      ← decoded_eq_iff t old₂ x]
    simp only [Option.some.injEq, Prod.mk.injEq, true_and]

/-- The reply to a call that returns a vector with the single element 2. -/
def vectorReply : Unmarshall :=
  { buf := fun i => if i = 27 then 1 else if i = 31 then 2 else 0, sz := 32, ind := rpcHeaderSz }

theorem vectorReply_holds : Holds vectorReply (Ty.encode (.vector .int) ([2] : List Int32)) :=
  ⟨rfl, by decide, by decide, by decide +kernel⟩

theorem decoding_forgets_empty :
    Holds vectorReply (Ty.encode (.vector .int) ([2] : List Int32)) ∧
    callM (.vector .int) 0 vectorReply ([] : List Int32) = some (0, ([2] : List Int32)) :=
  ⟨vectorReply_holds, (((decoding_forgets_iff (.vector .int) ([2] : List Int32) ([] : List Int32)
    ([] : List Int32) vectorReply vectorReply_holds).2 0 (by decide) (by decide)).mpr
      ⟨rfl, rfl⟩).1⟩

/-- The same reply behind an old element. -/
theorem decoding_appends :
    Holds vectorReply (Ty.encode (.vector .int) ([2] : List Int32)) ∧
    callM (.vector .int) 0 vectorReply ([1] : List Int32) = some (0, ([1, 2] : List Int32)) ∧
    ¬ (Ty.shr (.vector .int) ([1] : List Int32) vectorReply).1 = ([2] : List Int32) := by
  have hread := reads_decoded (.vector .int) ([1] : List Int32) ([2] : List Int32) vectorReply
    vectorReply_holds
  refine ⟨vectorReply_holds, ?_, ?_⟩
  · exact callM_eq vectorReply_holds (by decide) (by decide) ([1] : List Int32)
  · rw [hread]
    exact fun h => by cases h

end DisconnectedYfs.RPC
