import Tnode.JsonCallback
import Mathlib.Data.List.Basic
import Mathlib.Logic.Equiv.Basic

namespace Tnode

@[ext]
structure DesCblock where
  bytes : List Byte
  length_eq : bytes.length = 8
deriving DecidableEq

/-- `DES_ENCRYPT` and `DES_DECRYPT`. -/
inductive DesMode
  | encrypt
  | decrypt
deriving DecidableEq, Repr

/-- What is used of OpenSSL: `DES_set_key_unchecked`, and `DES_ecb_encrypt`, whose modes undo each
other on a block. -/
structure OpenSslDes where
  KeySchedule : Type
  setKeyUnchecked : DesCblock → KeySchedule
  ecbEncrypt : DesMode → KeySchedule → DesCblock → DesCblock
  inverts : ∀ schedule block,
    ecbEncrypt .decrypt schedule (ecbEncrypt .encrypt schedule block) = block

/-- `memset` to 0, then `memcpy` of so many bytes as a block has room for. -/
def cblock (s : List Byte) : DesCblock := ⟨(s ++ List.replicate 8 0).take 8, by simp⟩

/-- The loop of `openssl_des_encrypt` and `openssl_des_decrypt` over the whole blocks. -/
def desBlocks (crypt : DesCblock → DesCblock) (text : List Byte) (n : Nat) : List Byte :=
  (List.range n).flatMap fun i => (crypt (cblock ((text.drop (i * 8)).take 8))).bytes

/-- The part that is not a whole block; `none` is a read in front of the text. -/
def desRest (crypt : DesCblock → DesCblock) (text : List Byte) : Option (List Byte) :=
  if text.length % 8 = 0 then some []
  else
    let tmp1 := int32 (text.length / 8 * 8 : Nat)
    let tmp2 := int32 (text.length - tmp1)
    if tmp1 < 0 then none
    else some (crypt (cblock ((text.drop tmp1.toNat).take tmp2.toNat))).bytes

/-- The body that `openssl_des_encrypt` and `openssl_des_decrypt` share. -/
def opensslDes (des : OpenSslDes) (mode : DesMode) (text deskey : List Byte) : Option (List Byte) :=
  let keySchedule := des.setKeyUnchecked (cblock deskey)
  let crypt := des.ecbEncrypt mode keySchedule
  (desRest crypt text).map fun rest =>
    desBlocks crypt text ((int32 text.length).tdiv 8).toNat ++ rest

def opensslDesEncrypt (des : OpenSslDes) (plainString deskey : List Byte) : Option (List Byte) :=
  opensslDes des .encrypt plainString deskey

def opensslDesDecrypt (des : OpenSslDes) (cipherString deskey : List Byte) : Option (List Byte) :=
  opensslDes des .decrypt cipherString deskey

/-- What is encrypted comes back when it is decrypted. -/
def DesRoundTrip (des : OpenSslDes) (plainString deskey : List Byte) : Prop :=
  (opensslDesEncrypt des plainString deskey).bind (fun cipherString =>
    opensslDesDecrypt des cipherString deskey) = some plainString

section
variable {crypt : DesCblock → DesCblock} {text : List Byte}

theorem desBlocks_succ (n : Nat) : desBlocks crypt text (n + 1) =
    desBlocks crypt text n ++ (crypt (cblock ((text.drop (n * 8)).take 8))).bytes := by
  rw [desBlocks, List.range_succ, List.flatMap_append, List.flatMap_singleton]
  rfl

theorem length_desBlocks (n : Nat) : (desBlocks crypt text n).length = n * 8 := by
  induction n with
  | zero => rfl
  | succ n ih =>
    rw [desBlocks_succ, List.length_append, ih, DesCblock.length_eq]
    omega

theorem desBlocks_begins {m n : Nat} (h : m ≤ n) :
    ∃ more, desBlocks crypt text n = desBlocks crypt text m ++ more := by
  induction n with
  | zero =>
    obtain rfl := Nat.le_zero.mp h
    exact ⟨[], (List.append_nil _).symm⟩
  | succ n ih =>
    by_cases heq : m = n + 1
    · subst heq
      exact ⟨[], (List.append_nil _).symm⟩
    · obtain ⟨more, hmore⟩ := ih (by omega)
      rw [desBlocks_succ, hmore, List.append_assoc]
      exact ⟨_, rfl⟩

theorem cblock_eq (block : DesCblock) : cblock block.bytes = block := by
  apply DesCblock.ext
  show (block.bytes ++ List.replicate 8 0).take 8 = block.bytes
  rw [List.take_append_of_le_length (Nat.le_of_eq block.length_eq.symm)]
  exact List.take_of_length_le (Nat.le_of_eq block.length_eq)

theorem bytes_cblock {s : List Byte} (h : s.length = 8) : (cblock s).bytes = s :=
  congrArg DesCblock.bytes (cblock_eq ⟨s, h⟩)

/-- The blocks of what blocks have been put together to. -/
theorem cblock_desBlocks {n i : Nat} (hi : i < n) :
    cblock (((desBlocks crypt text n).drop (i * 8)).take 8) =
      crypt (cblock ((text.drop (i * 8)).take 8)) := by
  obtain ⟨more, hmore⟩ := @desBlocks_begins crypt text (i + 1) n hi
  have hblock : ((desBlocks crypt text n).drop (i * 8)).take 8 =
      (crypt (cblock ((text.drop (i * 8)).take 8))).bytes := by
    have hlength := (crypt (cblock ((text.drop (i * 8)).take 8))).length_eq
    rw [hmore, desBlocks_succ, List.append_assoc, List.drop_left' (length_desBlocks i),
      List.take_append_of_le_length (Nat.le_of_eq hlength.symm)]
    exact List.take_of_length_le (Nat.le_of_eq hlength)
  rw [hblock, cblock_eq]

/-- Blocks that are decrypted one by one. -/
theorem desBlocks_inverse {decrypt : DesCblock → DesCblock} (hinv : ∀ block, decrypt (crypt block) = block)
    {n k : Nat} (hk : k ≤ n) (htext : n * 8 ≤ text.length) :
    desBlocks decrypt (desBlocks crypt text n) k = text.take (k * 8) := by
  induction k with
  | zero => rfl
  | succ k ih =>
    have hlength : ((text.drop (k * 8)).take 8).length = 8 := by
      rw [List.length_take, List.length_drop]
      omega
    rw [desBlocks_succ, ih (by omega), cblock_desBlocks (by omega), hinv, bytes_cblock hlength,
      Nat.succ_mul, List.take_add]

end

section
variable {des : OpenSslDes} {mode : DesMode} {text deskey : List Byte}

theorem toNat_tdiv (n : Int) : (n.tdiv 8).toNat = n.toNat / 8 := by
  cases n with
  | ofNat n => rfl
  | negSucc n =>
    have hzero : (Int.negSucc n).toNat / 8 = 0 := Nat.zero_div 8
    rw [hzero]
    show (-(((n + 1) / 8 : Nat) : Int)).toNat = 0
    omega

/-- Whole blocks come out: for a text of whole blocks no more than an `int` tells. -/
theorem length_opensslDes {out : List Byte} (h : opensslDes des mode text deskey = some out) :
    out.length % 8 = 0 ∧
      (text.length % 8 = 0 → out.length = ((int32 text.length).tdiv 8).toNat * 8) := by
  obtain ⟨rest, hrest, rfl⟩ := Option.map_eq_some_iff.mp h
  have hblocks : ∀ crypt, (desBlocks crypt text ((int32 text.length).tdiv 8).toNat ++ rest).length =
      ((int32 text.length).tdiv 8).toNat * 8 + rest.length := by
    intro crypt
    rw [List.length_append, length_desBlocks]
  rw [hblocks]
  unfold desRest at hrest
  split at hrest
  next hwhole =>
    cases hrest
    rw [List.length_nil]
    exact ⟨by omega, fun _ => Nat.add_zero _⟩
  next hpart =>
    have hlength : rest.length = 8 := by
      dsimp only at hrest
      split at hrest
      next => cases hrest
      next =>
        cases hrest
        exact DesCblock.length_eq _
    rw [hlength]
    exact ⟨by omega, fun hwhole => absurd hwhole hpart⟩

theorem opensslDes_whole (hwhole : text.length % 8 = 0) (hshort : text.length < 2 ^ 31) :
    opensslDes des mode text deskey =
      some (desBlocks (des.ecbEncrypt mode (des.setKeyUnchecked (cblock deskey))) text
        (text.length / 8)) := by
  have hn : ((int32 text.length).tdiv 8).toNat = text.length / 8 := by
    rw [toNat_tdiv, int32_eq_self_iff.mpr (by omega)]
    rfl
  rw [opensslDes, desRest, if_pos hwhole, Option.map_some, hn, List.append_nil]

/-- A text comes back exactly where it consists of whole blocks and its length is an `int`. -/
theorem opensslDes_roundTrip_iff (des : OpenSslDes) (plainString deskey : List Byte) :
    DesRoundTrip des plainString deskey ↔
      plainString.length % 8 = 0 ∧ plainString.length < 2 ^ 31 := by
  constructor
  · intro h
    obtain ⟨cipherString, hcipher, hplain⟩ := Option.bind_eq_some_iff.mp h
    obtain ⟨hwhole, hlength⟩ := length_opensslDes hplain
    obtain ⟨hcwhole, hclength⟩ := length_opensslDes hcipher
    have hplainLength := hlength hcwhole
    have hcipherLength := hclength hwhole
    have hbounds := int32_bounds plainString.length
    have hbounds' := int32_bounds cipherString.length
    rw [toNat_tdiv] at hplainLength hcipherLength
    refine ⟨hwhole, ?_⟩
    omega
  · intro h
    obtain ⟨hwhole, hshort⟩ := h
    have hcipher := @opensslDes_whole des .encrypt plainString deskey hwhole hshort
    have hlength := @length_desBlocks
      (des.ecbEncrypt .encrypt (des.setKeyUnchecked (cblock deskey))) plainString
      (plainString.length / 8)
    rw [DesRoundTrip, opensslDesEncrypt, hcipher, Option.bind_some, opensslDesDecrypt,
      opensslDes_whole (by omega) (by omega), hlength, Nat.mul_div_cancel _ (by decide),
      desBlocks_inverse (des.inverts _) (Nat.le_refl _) (by omega)]
    exact congrArg some (List.take_of_length_le (by omega))

end

/-- OpenSSL as far as the key of zeros goes, a weak one, on the block of zeros and what it becomes. -/
def zeroKeyDes : OpenSslDes where
  KeySchedule := Unit
  setKeyUnchecked := fun _ => ()
  ecbEncrypt := fun _ _ block =>
    Equiv.swap (cblock []) (cblock [0x8C, 0xA6, 0x4D, 0xE9, 0xC1, 0xB1, 0x23, 0xA7]) block
  inverts := fun _ _ => Equiv.swap_apply_self ..

theorem zeros_come_back : DesRoundTrip zeroKeyDes (List.replicate 8 0) [] :=
  (opensslDes_roundTrip_iff zeroKeyDes _ []).mpr (by decide)

/-- A text of one byte does not come back, whatever the cipher is. -/
theorem one_byte_lost : ¬∃ des, DesRoundTrip des [65] [] := by
  intro h
  obtain ⟨des, h⟩ := h
  have hwhole := ((opensslDes_roundTrip_iff des [65] []).mp h).1
  cases hwhole

end Tnode
