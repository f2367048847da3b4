import CoMoNet.Script

/-!
# Transactions and blocks

The data the chain stores. Serialized sizes are modelled because the user name index
stores disk positions: the offset of a transaction is the size of everything before it.
-/

namespace CoMoNet

/-- A 256-bit hash, as a number. -/
abbrev Uint256 := Nat

/-- A transaction: the registration of a user name, or the spam message that heads a block. -/
structure CTransaction where
  /-- The format version, `CURRENT_VERSION` being 1. -/
  nVersion : Int := 1
  message : CScript := []
  /-- The user name, and in a spam message also the signature. -/
  userName : CScript := []
  /-- The public key, and in a key replacement also the signature. -/
  pubKey : CScript := []
  /-- The accumulator of an administrator transaction. -/
  accumulator : CScript := []
  /-- The nonce of the transaction's proof of work. -/
  nNonce : Nat := 0
deriving DecidableEq, Repr

/-- `GetSizeOfCompactSize`: the bytes of a length field. -/
def sizeOfCompactSize (n : Nat) : Nat :=
  if n < 253 then 1 else if n ≤ 0xffff then 3 else if n ≤ 0xffffffff then 5 else 9

namespace CTransaction

/-- A transaction with a message is a spam message. -/
def isSpamMessage (tx : CTransaction) : Bool := !tx.message.isEmpty

/-- `GetUsername`: the name of a registration, empty if it is not one direct push. -/
def getUsername (tx : CTransaction) : Bytes :=
  if CScript.isSmallString tx.userName then CScript.extractSmallString tx.userName else []

/-- `GetSerializeSize` of a transaction: version, four scripts, nonce. -/
def serializeSize (tx : CTransaction) : Nat :=
  let script (s : CScript) := sizeOfCompactSize s.length + s.length
  4 + script tx.message + script tx.userName + script tx.pubKey + script tx.accumulator + 4

/-- The transaction is a registration of `u`. -/
def registers (u : Bytes) (tx : CTransaction) : Bool :=
  !tx.isSpamMessage && tx.getUsername == u

end CTransaction

/-- The header of a block. -/
structure CBlockHeader where
  nVersion : Int
  /-- The height the block claims. -/
  nHeight : Int
  hashPrevBlock : Uint256
  /-- The root of the Merkle tree of the transactions. -/
  hashMerkleRoot : Uint256
  /-- The time of the block, in seconds. -/
  nTime : Nat
  /-- The proof of work target, in compact form. -/
  nBits : Nat
  nNonce : Nat
deriving DecidableEq, Repr

/-- `CBlock`: a header and the transactions, the spam message first. -/
structure CBlock extends CBlockHeader where
  vtx : List CTransaction
deriving DecidableEq, Repr

namespace CBlock

/-- `GetSerializeSize` of a block: the header has 84 bytes. -/
def serializeSize (block : CBlock) : Nat :=
  84 + sizeOfCompactSize block.vtx.length + (block.vtx.map CTransaction.serializeSize).sum

/-- The transaction of a block that registers `u`. -/
def txFor (u : Bytes) (block : CBlock) : Option CTransaction :=
  block.vtx.find? (CTransaction.registers u)

/-- The transaction that starts at an offset behind the header. -/
def readTx : List CTransaction → Nat → Nat → Option CTransaction
  | [], _, _ => none
  | tx :: vtx, at_, nTxOffset =>
    if at_ = nTxOffset then some tx else readTx vtx (at_ + tx.serializeSize) nTxOffset

end CBlock
end CoMoNet
