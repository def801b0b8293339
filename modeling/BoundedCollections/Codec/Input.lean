import Mathlib

/-!
# Reading bytes

The decoders of the codec read from an `Input`, and every `Decode` implementation is
written against that trait alone: it can ask for the next bytes and nothing else. Here
an input is the list of bytes still unread, as a `&[u8]` is, and a decoder returns,
besides its value or its error, the input as it left it – also on failure, because
where a failed decode leaves the input is part of what the bounded map promises.

That a decoder can only move forward is a property of the trait, not of any one
implementation, so a `BoundedCollections.Decoder` carries it as a field: whatever a
decoder leaves is a suffix of what it was given. The bounded map's own decoder needs
it to say where it leaves the input it decodes through a prepended stream.

The one element codec given here is `u8`'s, a single byte, with its round trip; the
others are parameters of the collections' codecs.
-/

namespace BoundedCollections

/-- The bytes still to be read: a `&[u8]` input, which reading advances. -/
abbrev Input := List UInt8

/-- What a decode hands back: the value or the error, and the input as it is left. -/
inductive Decoded (α : Type)
  /-- `Ok`, with the input past what was read. -/
  | ok (a : α) (rest : Input)
  /-- `Err`, with the input where the failing read left it. -/
  | err (e : String) (rest : Input)
deriving DecidableEq

/-- The input as a decode leaves it. -/
def Decoded.rest {α : Type} : Decoded α → Input
  | .ok _ r => r
  | .err _ r => r

/-- Rust's `?` on a decode: an error is passed up with the input where it was left, a
value goes on to the rest of the decode from where reading stopped. -/
def Decoded.bind {α β : Type} (d : Decoded α) (f : α → Input → Decoded β) : Decoded β :=
  match d with
  | .ok a r => f a r
  | .err e r => .err e r

section Bind

variable {α β : Type} {f : α → Input → Decoded β}

@[simp] theorem Decoded.bind_ok (a : α) (r : Input) : (Decoded.ok a r).bind f = f a r := rfl

@[simp] theorem Decoded.bind_err (e : String) (r : Input) :
    (Decoded.err e r : Decoded α).bind f = .err e r := rfl

/-- A decode built with `?` succeeds only through a success of its first part. -/
theorem Decoded.bind_eq_ok {d : Decoded α} {b : β} {r : Input} (h : d.bind f = .ok b r) :
    ∃ a r', d = .ok a r' ∧ f a r' = .ok b r := by
  cases d with
  | ok a r' => exact ⟨a, r', rfl, h⟩
  | err e r' => cases h

/-- A decode built with `?` reads forward when each of its parts does. -/
theorem Decoded.suffix_bind {d : Decoded α} {inp : Input} (hd : List.IsSuffix d.rest inp)
    (hf : ∀ a r, List.IsSuffix (f a r).rest r) : List.IsSuffix (d.bind f).rest inp := by
  cases d with
  | ok a r => exact (hf a r).trans hd
  | err e r => exact hd

end Bind

/-- A `Decode` implementation: it reads forward only, so what it leaves is a suffix of
what it was given. -/
structure Decoder (α : Type) where
  /-- `Decode::decode`. -/
  run : Input → Decoded α
  /-- Reading never moves an input backwards. -/
  forward : ∀ inp, List.IsSuffix (run inp).rest inp

/-- An encoder and a decoder that invert one another, with anything after the encoding
left unread. -/
def RoundTrip {α : Type} (encode : α → List UInt8) (decoder : Decoder α) : Prop :=
  ∀ x rest, decoder.run (encode x ++ rest) = .ok x rest

/-- `<() as Decode>`: nothing to read. -/
def unitDecoder : Decoder Unit := ⟨fun inp => .ok () inp, List.suffix_refl⟩

/-- `()` encodes to nothing and decodes from nothing. -/
theorem roundTrip_unit : RoundTrip (fun _ : Unit => []) unitDecoder := fun _ _ => rfl

/-! ### The primitive reads -/

/-- The error of a read past the end of a `&[u8]`. -/
def notEnoughData : String := "Not enough data to fill buffer"

/-- `<&[u8] as Input>::read` into a buffer of `n` bytes: refused, without moving, when
fewer remain. -/
def read (n : ℕ) (inp : Input) : Decoded (List UInt8) :=
  if n ≤ inp.length then .ok (inp.take n) (inp.drop n) else .err notEnoughData inp

/-- `Input::read_byte`. -/
def readByte : Input → Decoded UInt8
  | [] => .err notEnoughData []
  | b :: inp => .ok b inp

/-- `from_le_bytes`: the bytes as a number, least significant first. -/
def fromLeBytes : List UInt8 → ℕ
  | [] => 0
  | b :: bs => b.toNat + 256 * fromLeBytes bs

/-- `to_le_bytes` of a `w`-byte integer. -/
def toLeBytes : ℕ → ℕ → List UInt8
  | 0, _ => []
  | w + 1, x => UInt8.ofNat (x % 256) :: toLeBytes w (x / 256)

section Reads

variable {n : ℕ} {l rest : Input}

theorem readByte_rest_suffix (inp : Input) : List.IsSuffix (readByte inp).rest inp := by
  cases inp with
  | nil => exact List.suffix_refl _
  | cons b inp => exact List.suffix_cons b inp

theorem read_rest_suffix (n : ℕ) (inp : Input) : List.IsSuffix (read n inp).rest inp := by
  unfold read
  split_ifs
  · exact List.drop_suffix _ _
  · exact List.suffix_refl _

theorem read_eq_ok {n : ℕ} {inp bs r : Input} (h : read n inp = .ok bs r) :
    bs.length = n ∧ inp = bs ++ r := by
  unfold read at h
  split_ifs at h with hn
  cases h
  exact ⟨List.length_take_of_le hn, (List.take_append_drop n inp).symm⟩

theorem read_append (h : l.length = n) : read n (l ++ rest) = .ok l rest := by
  subst h
  rw [read, if_pos (by simp), List.take_left, List.drop_left]

@[simp] theorem length_toLeBytes (w x : ℕ) : (toLeBytes w x).length = w := by
  induction w generalizing x with
  | zero => rfl
  | succ w ih => simp [toLeBytes, ih]

theorem ofNat_toNat_u8 (b : UInt8) : UInt8.ofNat b.toNat = b :=
  UInt8.eq_of_toBitVec_eq (by simp [UInt8.ofNat, UInt8.toNat])

theorem toNat_ofNat_mod_256 (x : ℕ) : (UInt8.ofNat (x % 256)).toNat = x % 256 :=
  UInt8.toNat_ofNat_of_lt (Nat.mod_lt _ (by decide))

/-- Writing `w` bytes and reading them back keeps the number modulo `256 ^ w`. -/
theorem fromLeBytes_toLeBytes (w x : ℕ) : fromLeBytes (toLeBytes w x) = x % 256 ^ w := by
  induction w generalizing x with
  | zero => simp [toLeBytes, fromLeBytes, Nat.mod_one]
  | succ w ih =>
    rw [toLeBytes, fromLeBytes, ih, toNat_ofNat_mod_256, Nat.pow_succ', Nat.mod_mul]

theorem fromLeBytes_lt (bs : List UInt8) : fromLeBytes bs < 256 ^ bs.length := by
  induction bs with
  | nil => exact Nat.one_pos
  | cons b bs ih =>
    have hb : b.toNat < 256 := b.toNat_lt_size
    rw [fromLeBytes, List.length_cons, Nat.pow_succ]
    omega

/-- Reading bytes back as a number and writing it again gives the bytes. -/
theorem toLeBytes_fromLeBytes (bs : List UInt8) :
    toLeBytes bs.length (fromLeBytes bs) = bs := by
  induction bs with
  | nil => rfl
  | cons b bs ih =>
    have hb : b.toNat < 256 := b.toNat_lt_size
    rw [List.length_cons, toLeBytes, fromLeBytes,
      show (b.toNat + 256 * fromLeBytes bs) % 256 = b.toNat by omega,
      show (b.toNat + 256 * fromLeBytes bs) / 256 = fromLeBytes bs by omega, ofNat_toNat_u8, ih]

end Reads

/-! ### `u8` -/

/-- `<u8 as Encode>`, a `u8` taken as its value below `256`: the one byte. -/
def encodeU8 (x : Fin 256) : List UInt8 := [UInt8.ofNat x]

/-- `<u8 as Decode>`: `Input::read_byte`. -/
def u8Decoder : Decoder (Fin 256) :=
  ⟨fun inp => (readByte inp).bind fun b r => .ok ⟨b.toNat, b.toNat_lt_size⟩ r,
    fun inp => Decoded.suffix_bind (readByte_rest_suffix inp) fun _ _ => List.suffix_refl _⟩

theorem roundTrip_u8 : RoundTrip encodeU8 u8Decoder := fun x rest =>
  congrArg (Decoded.ok · rest) (Fin.ext (UInt8.toNat_ofNat_of_lt x.isLt))

end BoundedCollections
