/-
Contacts as the encrypted storage keeps them (`td/e2e/e2e_api.h`,
`EncryptedStorage.cpp`), and their TL form.
-/
import Tdlib.E2e.Trie

namespace Tdlib.E2e

namespace Api

inductive Source
  | self
  | server
  | contact
  deriving DecidableEq

structure Entry (α : Type) where
  source : Source := .self
  timestamp : BitVec 32 := 0
  value : α
  deriving DecidableEq

structure Name where
  firstName : Bytes
  lastName : Bytes
  deriving DecidableEq

structure PhoneNumber where
  phoneNumber : Bytes
  deriving DecidableEq

structure EmojiNonces where
  selfNonce : Option UInt256 := none
  contactNonceHash : Option UInt256 := none
  contactNonce : Option UInt256 := none
  deriving DecidableEq

inductive ContactState
  | unknown
  | contact
  | notContact
  deriving DecidableEq

/-- A contact; its generation and public key have no part in what follows. -/
structure Contact where
  oUserId : Option (Entry (BitVec 64)) := none
  oName : Option (Entry Name) := none
  oPhoneNumber : Option (Entry PhoneNumber) := none
  emojiNonces : Entry EmojiNonces := { value := {} }
  contactState : Entry ContactState := { value := .unknown }
  deriving DecidableEq

end Api

open Api

/-! ## The TL form -/

/-- `e2e.Personal`. -/
inductive Personal
  | userId (userId : BitVec 64)
  | name (firstName lastName : Bytes)
  | phoneNumber (phoneNumber : Bytes)
  | contactState (flags : BitVec 32) (isContact : Bool)
  | emojiNonces (flags : BitVec 32) (selfNonce contactNonceHash contactNonce : UInt256)
  deriving DecidableEq

/-- `e2e.personalOnClient`. A time is `int32` there, with the same bits. -/
structure OnClient where
  signedAt : BitVec 32
  personal : Personal
  deriving DecidableEq

def selfNonceMask : BitVec 32 := 1
def contactNonceHashMask : BitVec 32 := 2
def contactNonceMask : BitVec 32 := 4

/-- What the generated code stores and fetches of an object: of the optional
fields those whose bit is set in the flags, and a field of type `true` as its bit. -/
def Personal.stored : Personal → Personal
  | .emojiNonces flags selfNonce contactNonceHash contactNonce =>
    .emojiNonces flags (if flags &&& selfNonceMask ≠ 0 then selfNonce else 0)
      (if flags &&& contactNonceHashMask ≠ 0 then contactNonceHash else 0)
      (if flags &&& contactNonceMask ≠ 0 then contactNonce else 0)
  | .contactState flags isContact =>
    let flags := if isContact then flags ||| 1 else flags
    .contactState flags (flags &&& 1 ≠ 0)
  | personal => personal

/-- A mask, multiplied with a condition. -/
def maskIf (mask : BitVec 32) (b : Bool) : BitVec 32 := if b then mask else 0

namespace Api

def EmojiNonces.toTl (entry : EmojiNonces) : Personal :=
  let flags := maskIf selfNonceMask entry.selfNonce.isSome +
    maskIf contactNonceMask entry.contactNonce.isSome +
    maskIf contactNonceMask entry.contactNonceHash.isSome
  .emojiNonces flags (entry.selfNonce.getD 0) (entry.contactNonceHash.getD 0) (entry.contactNonce.getD 0)

def Entry.toTl {α : Type} (personal : α → Personal) (entry : Entry α) : OnClient :=
  ⟨entry.timestamp, personal entry.value⟩

/-- `to_tl` of a contact. Its state is not written yet. -/
def Contact.toTl (contact : Contact) : List OnClient :=
  (contact.oUserId.map (Entry.toTl .userId)).toList ++
  (contact.oName.map (Entry.toTl fun name => .name name.firstName name.lastName)).toList ++
  (contact.oPhoneNumber.map (Entry.toTl fun phone => .phoneNumber phone.phoneNumber)).toList ++
  [contact.emojiNonces.toTl EmojiNonces.toTl, contact.contactState.toTl fun _ => .contactState 0 false]

/-- One entry of the TL form goes into the contact. -/
def Contact.init (contact : Contact) (entry : OnClient) : Contact :=
  match entry.personal with
  | .userId userId => { contact with oUserId := some ⟨.self, entry.signedAt, userId⟩ }
  | .name firstName lastName => { contact with oName := some ⟨.self, entry.signedAt, ⟨firstName, lastName⟩⟩ }
  | .phoneNumber phoneNumber => { contact with oPhoneNumber := some ⟨.self, entry.signedAt, ⟨phoneNumber⟩⟩ }
  | .contactState _ isContact =>
    { contact with contactState := ⟨.self, entry.signedAt, if isContact then .contact else .notContact⟩ }
  | .emojiNonces flags selfNonce _ _ =>
    { contact with emojiNonces := ⟨.self, entry.signedAt,
      { selfNonce := if flags &&& selfNonceMask ≠ 0 then some selfNonce else none }⟩ }

/-- `from_tl`. -/
def Contact.fromTl (entries : List OnClient) : Contact := entries.foldl Contact.init {}

/-- A contact that was stored and fetched. -/
def Contact.reread (contact : Contact) : Contact :=
  .fromTl (contact.toTl.map fun entry => { entry with personal := entry.personal.stored })

/-- An entry without its source. -/
def Entry.dated {α : Type} (entry : Entry α) : BitVec 32 × α := (entry.timestamp, entry.value)

/-- The entries and their times are the same. -/
structure Contact.Same (a b : Contact) : Prop where
  oUserId : a.oUserId.map Entry.dated = b.oUserId.map Entry.dated
  oName : a.oName.map Entry.dated = b.oName.map Entry.dated
  oPhoneNumber : a.oPhoneNumber.map Entry.dated = b.oPhoneNumber.map Entry.dated
  emojiNonces : a.emojiNonces.dated = b.emojiNonces.dated

theorem Contact.init_emojiNonces (contact : Contact) (time : BitVec 32) (nonces : EmojiNonces) :
    contact.init ⟨time, nonces.toTl.stored⟩ =
      { contact with emojiNonces := ⟨.self, time, { selfNonce := nonces.selfNonce }⟩ } := by
  rcases nonces with ⟨_ | _, _ | _, _ | _⟩ <;>
    simp [init, EmojiNonces.toTl, Personal.stored, maskIf, selfNonceMask, contactNonceMask]

theorem Contact.reread_eq (contact : Contact) : contact.reread =
    { oUserId := contact.oUserId.map fun e => { e with source := .self }
      oName := contact.oName.map fun e => { e with source := .self }
      oPhoneNumber := contact.oPhoneNumber.map fun e => { e with source := .self }
      emojiNonces := ⟨.self, contact.emojiNonces.timestamp, { selfNonce := contact.emojiNonces.value.selfNonce }⟩
      contactState := ⟨.self, contact.contactState.timestamp, .notContact⟩ } := by
  have hnonces (c : Contact) := c.init_emojiNonces contact.emojiNonces.timestamp contact.emojiNonces.value
  unfold reread fromTl toTl
  rcases contact with ⟨_ | _, _ | _, _ | _, nonces, state⟩ <;>
    simp only [Option.map_none, Option.map_some, Option.toList_none, Option.toList_some, List.nil_append,
      List.cons_append, List.map_cons, List.map_nil, List.foldl_cons, List.foldl_nil, Entry.toTl] at hnonces ⊢ <;>
    simp only [hnonces] <;> rfl

/-- **When a contact is preserved**: exactly if it has neither the nonce of the
contact nor its hash. -/
theorem Contact.reread_same_iff (contact : Contact) : contact.Same contact.reread ↔
    contact.emojiNonces.value.contactNonceHash = none ∧ contact.emojiNonces.value.contactNonce = none := by
  rw [reread_eq]
  constructor
  · intro h
    have hnonces := congrArg Prod.snd h.emojiNonces
    simp only [Entry.dated] at hnonces
    rw [hnonces]
    exact ⟨rfl, rfl⟩
  · rintro ⟨hhash, hnonce⟩
    refine ⟨?_, ?_, ?_, ?_⟩
    · rw [Option.map_map]; rfl
    · rw [Option.map_map]; rfl
    · rw [Option.map_map]; rfl
    · obtain ⟨_, _, _, ⟨_, _, ⟨_, hash, nonce⟩⟩, _⟩ := contact
      obtain rfl : hash = none := hhash
      obtain rfl : nonce = none := hnonce
      rfl

theorem Contact.loses_nonce_hash : ¬ Contact.Same { emojiNonces := { value := { contactNonceHash := some 1 } } }
      (Contact.reread { emojiNonces := { value := { contactNonceHash := some 1 } } }) := by
  intro h
  have := h.emojiNonces
  revert this
  decide

end Api

end Tdlib.E2e
