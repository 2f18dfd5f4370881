import Mathlib.Algebra.Order.Ring.Int
import Mathlib.Tactic.Common

/-!
# Binary codecs

A codec writes a value as bytes and reads it back from the front of a byte string, leaving
what follows. `RoundTrips` is the law of one value: what was written is read back whatever
bytes come after it. A record is written field by field, so its round trip is the
composition of those of its fields (`RoundTrips.bind`).

The building blocks are fixed-width little-endian integers, integers in groups of seven
bits, and lists behind their length.
-/

/-- A writer and a reader. -/
structure Codec (α : Type) where
  put : α → List UInt8
  get : StateT (List UInt8) Option α

namespace Codec

variable {α β : Type}

/-- What the codec writes for `a` is read back as `a`, whatever follows. -/
def RoundTrips (c : Codec α) (a : α) : Prop :=
  ∀ rest, c.get.run (c.put a ++ rest) = some (a, rest)

/-- Reading a written value at the front hands it to what reads on. -/
theorem RoundTrips.bind {c : Codec α} {a : α} (h : c.RoundTrips a)
    (f : α → StateT (List UInt8) Option β) (rest : List UInt8) :
    (c.get >>= f).run (c.put a ++ rest) = (f a).run rest := by
  rw [StateT.run_bind, h rest]
  rfl

/-! ## Little-endian integers -/

/-- The `n` lowest bytes of `v`, the lowest first. -/
def putLe : ℕ → ℕ → List UInt8
  | 0, _ => []
  | n + 1, v => UInt8.ofNat v :: putLe n (v / 256)

/-- The next byte. -/
def getByte : StateT (List UInt8) Option UInt8 := fun bytes =>
  match bytes with
  | [] => none
  | b :: rest => some (b, rest)

theorem run_getByte (b : UInt8) (rest : List UInt8) : getByte.run (b :: rest) = some (b, rest) :=
  rfl

/-- The value of the next `n` bytes. -/
def getLe : ℕ → StateT (List UInt8) Option ℕ
  | 0 => return 0
  | n + 1 => do
    let b ← getByte
    let v ← getLe n
    return b.toNat + 256 * v

/-- An unsigned integer of `n` bytes. -/
def le (n : ℕ) : Codec ℕ := ⟨putLe n, getLe n⟩

theorem le_roundTrips {n v : ℕ} (h : v < 256 ^ n) : (le n).RoundTrips v := by
  intro rest
  show (getLe n).run (putLe n v ++ rest) = some (v, rest)
  induction n generalizing v with
  | zero =>
    have hzero : v = 0 := by simpa using h
    rw [hzero]
    rfl
  | succ n ih =>
    have hdiv : v / 256 < 256 ^ n := by
      rw [Nat.div_lt_iff_lt_mul (by omega), ← pow_succ]
      exact h
    have hbyte : (UInt8.ofNat v).toNat + 256 * (v / 256) = v := by
      rw [UInt8.toNat_ofNat']
      omega
    rw [getLe, putLe, List.cons_append, StateT.run_bind, run_getByte]
    show (getLe n >>= fun v' => pure ((UInt8.ofNat v).toNat + 256 * v')).run
      (putLe n (v / 256) ++ rest) = _
    rw [StateT.run_bind, ih hdiv]
    show some ((UInt8.ofNat v).toNat + 256 * (v / 256), rest) = _
    rw [hbyte]

/-! ## Groups of seven bits -/

/-- `v` in groups of seven bits, the lowest first, each but the last marked by the top bit of
its byte; at most `n` groups. -/
def putGroups : ℕ → ℕ → List UInt8
  | 0, _ => []
  | n + 1, v =>
    if v < 128 then [UInt8.ofNat v] else UInt8.ofNat (v % 128 + 128) :: putGroups n (v / 128)

/-- The value of at most `n` groups. -/
def getGroups : ℕ → StateT (List UInt8) Option ℕ
  | 0 => fun _ => none
  | n + 1 => do
    let b ← getByte
    if b.toNat < 128 then return b.toNat
    else do
      let v ← getGroups n
      return b.toNat - 128 + 128 * v

/-- An unsigned integer in at most `n` groups of seven bits. -/
def groups (n : ℕ) : Codec ℕ := ⟨putGroups n, getGroups n⟩

theorem groups_roundTrips {n v : ℕ} (hn : 0 < n) (h : v < 128 ^ n) : (groups n).RoundTrips v := by
  intro rest
  show (getGroups n).run (putGroups n v ++ rest) = some (v, rest)
  induction n generalizing v with
  | zero => omega
  | succ n ih =>
    rw [putGroups, getGroups]
    by_cases hlast : v < 128
    · have hbyte : (UInt8.ofNat v).toNat = v := by
        rw [UInt8.toNat_ofNat']
        omega
      rw [if_pos hlast, List.singleton_append, StateT.run_bind, run_getByte]
      show (if (UInt8.ofNat v).toNat < 128 then _ else _ : StateT (List UInt8) Option ℕ).run rest = _
      rw [hbyte, if_pos hlast]
      rfl
    · have hdiv : v / 128 < 128 ^ n := by
        rw [Nat.div_lt_iff_lt_mul (by omega), ← pow_succ]
        exact h
      -- a second group needs a second place
      have hpos : 0 < n := by
        refine Nat.pos_of_ne_zero fun hzero => ?_
        rw [hzero, pow_zero] at hdiv
        omega
      have hbyte : (UInt8.ofNat (v % 128 + 128)).toNat = v % 128 + 128 := by
        rw [UInt8.toNat_ofNat']
        omega
      have hvalue : v % 128 + 128 - 128 + 128 * (v / 128) = v := by omega
      rw [if_neg hlast, List.cons_append, StateT.run_bind, run_getByte]
      show (if (UInt8.ofNat (v % 128 + 128)).toNat < 128 then _ else _ :
        StateT (List UInt8) Option ℕ).run (putGroups n (v / 128) ++ rest) = _
      rw [hbyte, if_neg (by omega), StateT.run_bind, ih hpos hdiv]
      show some (v % 128 + 128 - 128 + 128 * (v / 128), rest) = _
      rw [hvalue]

/-! ## Lists -/

/-- The next `n` elements. -/
def getMany (c : Codec α) : ℕ → StateT (List UInt8) Option (List α)
  | 0 => return []
  | n + 1 => do
    let a ← c.get
    let as ← getMany c n
    return a :: as

/-- The elements one after the other, behind their number. -/
def list (size : Codec ℕ) (c : Codec α) : Codec (List α) where
  put l := size.put l.length ++ l.flatMap c.put
  get := size.get >>= getMany c

theorem run_getMany {c : Codec α} {l : List α} (h : ∀ a ∈ l, c.RoundTrips a) (rest : List UInt8) :
    (getMany c l.length).run (l.flatMap c.put ++ rest) = some (l, rest) := by
  induction l with
  | nil => rfl
  | cons a l ih =>
    have hrest := ih fun b hb => h b (List.mem_cons_of_mem a hb)
    rw [List.length_cons, getMany, List.flatMap_cons, List.append_assoc,
      (h a (List.mem_cons_self ..)).bind, StateT.run_bind, hrest]
    rfl

theorem list_roundTrips {size : Codec ℕ} {c : Codec α} {l : List α}
    (hsize : size.RoundTrips l.length) (h : ∀ a ∈ l, c.RoundTrips a) :
    (list size c).RoundTrips l := by
  intro rest
  show (size.get >>= getMany c).run ((size.put l.length ++ l.flatMap c.put) ++ rest) = _
  rw [List.append_assoc, hsize.bind]
  exact run_getMany h rest

/-! ## Values written as other values -/

/-- Write `b` as `g b`, and read `f a` for `a`. -/
def imap (c : Codec α) (f : α → β) (g : β → α) : Codec β where
  put b := c.put (g b)
  get := f <$> c.get

theorem imap_roundTrips {c : Codec α} {f : α → β} {g : β → α} {b : β} (h : c.RoundTrips (g b))
    (hfg : f (g b) = b) : (c.imap f g).RoundTrips b := by
  intro rest
  show (f <$> c.get).run (c.put (g b) ++ rest) = _
  rw [StateT.run_map, h rest]
  show some (f (g b), rest) = _
  rw [hfg]

end Codec
