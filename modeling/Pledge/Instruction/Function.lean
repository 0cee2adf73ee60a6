-- The functions of the host that a program can call, with their codes and
-- names. They work on the registers A and B, on the chain and on the balance.

namespace Pledge

/-- The two registers of the machine, four words each. -/
inductive Register where
  | a
  | b
  deriving DecidableEq, Repr

namespace Register

def other : Register → Register
  | a => b
  | b => a

def letter : Register → String
  | a => "A"
  | b => "B"

end Register

/-- The first two words of a register, or the last two. -/
inductive Half where
  | low
  | high
  deriving DecidableEq, Repr

/-- The place of the first word of a half. -/
def Half.first : Half → Fin 4
  | low => 0
  | high => 2

/-- The place of the second word of a half. -/
def Half.second : Half → Fin 4
  | low => 1
  | high => 3

/-- Bitwise ways to combine the registers. -/
inductive BitOp where
  | or
  | and
  | xor
  deriving DecidableEq, Repr

/-- Hash functions that have a code. -/
inductive HashKind where
  | md5
  | hash160
  | sha256
  deriving DecidableEq, Repr

inductive Function where
  /-- One word of a register. -/
  | getWord (r : Register) (i : Fin 4)
  /-- Sets one word of a register. -/
  | setWord (r : Register) (i : Fin 4)
  /-- Sets two words of a register. -/
  | setPair (r : Register) (half : Half)
  | clear (r : Register)
  | clearBoth
  /-- Copies the other register into `r`. -/
  | copyInto (r : Register)
  | isZero (r : Register)
  | equal
  | swap
  /-- Combines both registers into `r`. -/
  | combine (op : BitOp) (r : Register)
  /-- Writes a register to four slots. -/
  | storeRegister (r : Register)
  /-- Reads a register from four slots. -/
  | loadRegister (r : Register)
  | hash (kind : HashKind)
  | checkHash (kind : HashKind)
  | blockTimestamp
  | creationTimestamp
  | previousBlockTimestamp
  | previousBlockHash
  /-- Puts the number of the first transaction after a timestamp into A. -/
  | findTxAfter
  | txKind
  | txAmount
  | txTimestamp
  | txRandom
  | txMessage
  /-- Puts the sender of the transaction in A into B. -/
  | txSender
  | creator
  | currentBalance
  | previousBalance
  /-- Pays an amount to the address in B. -/
  | pay
  /-- Pays the whole balance to the address in B. -/
  | payAll
  | payPrevious
  | sendMessage
  /-- Moves a timestamp by a number of minutes. -/
  | addMinutes
  deriving DecidableEq, Repr

namespace Function

def code : Function → UInt16
  | getWord .a i => UInt16.ofNat (0x0100 + i.val)
  | getWord .b i => UInt16.ofNat (0x0104 + i.val)
  | setWord .a i => UInt16.ofNat (0x0110 + i.val)
  | setWord .b i => UInt16.ofNat (0x0116 + i.val)
  | setPair .a .low => 0x0114
  | setPair .a .high => 0x0115
  | setPair .b .low => 0x011a
  | setPair .b .high => 0x011b
  | clear .a => 0x0120
  | clear .b => 0x0121
  | clearBoth => 0x0122
  | copyInto .a => 0x0123
  | copyInto .b => 0x0124
  | isZero .a => 0x0125
  | isZero .b => 0x0126
  | equal => 0x0127
  | swap => 0x0128
  | combine .or .a => 0x0129
  | combine .or .b => 0x012a
  | combine .and .a => 0x012b
  | combine .and .b => 0x012c
  | combine .xor .a => 0x012d
  | combine .xor .b => 0x012e
  | storeRegister .a => 0x0132
  | storeRegister .b => 0x0133
  | loadRegister .a => 0x0134
  | loadRegister .b => 0x0135
  | hash .md5 => 0x0200
  | checkHash .md5 => 0x0201
  | hash .hash160 => 0x0202
  | checkHash .hash160 => 0x0203
  | hash .sha256 => 0x0204
  | checkHash .sha256 => 0x0205
  | blockTimestamp => 0x0300
  | creationTimestamp => 0x0301
  | previousBlockTimestamp => 0x0302
  | previousBlockHash => 0x0303
  | findTxAfter => 0x0304
  | txKind => 0x0305
  | txAmount => 0x0306
  | txTimestamp => 0x0307
  | txRandom => 0x0308
  | txMessage => 0x0309
  | txSender => 0x030a
  | creator => 0x030b
  | currentBalance => 0x0400
  | previousBalance => 0x0401
  | pay => 0x0402
  | payAll => 0x0403
  | payPrevious => 0x0404
  | sendMessage => 0x0405
  | addMinutes => 0x0406

/-- The name of a function in listings. -/
def mnemonic : Function → String
  | getWord r i => "GET_" ++ r.letter ++ toString (i.val + 1)
  | setWord r i => "SET_" ++ r.letter ++ toString (i.val + 1)
  | setPair .a .low => "SET_A1_A2"
  | setPair .a .high => "SET_A3_A4"
  | setPair .b .low => "SET_B1_B2"
  | setPair .b .high => "SET_B3_B4"
  | clear r => "CLEAR_" ++ r.letter
  | clearBoth => "CLEAR_A_AND_B"
  | copyInto r => "COPY_" ++ r.letter ++ "_FROM_" ++ r.other.letter
  | isZero r => "CHECK_" ++ r.letter ++ "_IS_ZERO"
  | equal => "CHECK_A_EQUALS_B"
  | swap => "SWAP_A_AND_B"
  | combine .or r => "OR_" ++ r.letter ++ "_WITH_" ++ r.other.letter
  | combine .and r => "AND_" ++ r.letter ++ "_WITH_" ++ r.other.letter
  | combine .xor r => "XOR_" ++ r.letter ++ "_WITH_" ++ r.other.letter
  | storeRegister r => "GET_" ++ r.letter ++ "_DAT"
  | loadRegister r => "SET_" ++ r.letter ++ "_DAT"
  | hash .md5 => "MD5_A_TO_B"
  | hash .hash160 => "HASH160_A_TO_B"
  | hash .sha256 => "SHA256_A_TO_B"
  | checkHash .md5 => "CHECK_MD5_A_WITH_B"
  | checkHash .hash160 => "CHECK_HASH160_A_WITH_B"
  | checkHash .sha256 => "CHECK_SHA256_A_WITH_B"
  | blockTimestamp => "GET_BLOCK_TIMESTAMP"
  | creationTimestamp => "GET_CREATION_TIMESTAMP"
  | previousBlockTimestamp => "GET_PREVIOUS_BLOCK_TIMESTAMP"
  | previousBlockHash => "PUT_PREVIOUS_BLOCK_HASH_INTO_A"
  | findTxAfter => "PUT_TX_AFTER_TIMESTAMP_INTO_A"
  | txKind => "GET_TYPE_FROM_TX_IN_A"
  | txAmount => "GET_AMOUNT_FROM_TX_IN_A"
  | txTimestamp => "GET_TIMESTAMP_FROM_TX_IN_A"
  | txRandom => "GENERATE_RANDOM_USING_TX_IN_A"
  | txMessage => "PUT_MESSAGE_FROM_TX_IN_A_INTO_B"
  | txSender => "PUT_ADDRESS_FROM_TX_IN_A_INTO_B"
  | creator => "PUT_CREATOR_INTO_B"
  | currentBalance => "GET_CURRENT_BALANCE"
  | previousBalance => "GET_PREVIOUS_BALANCE"
  | pay => "PAY_TO_ADDRESS_IN_B"
  | payAll => "PAY_ALL_TO_ADDRESS_IN_B"
  | payPrevious => "PAY_PREVIOUS_TO_ADDRESS_IN_B"
  | sendMessage => "MESSAGE_A_TO_ADDRESS_IN_B"
  | addMinutes => "ADD_MINUTES_TO_TIMESTAMP"

def all : List Function := [
  getWord .a 0, getWord .a 1, getWord .a 2, getWord .a 3,
  getWord .b 0, getWord .b 1, getWord .b 2, getWord .b 3,
  setWord .a 0, setWord .a 1, setWord .a 2, setWord .a 3, setPair .a .low, setPair .a .high,
  setWord .b 0, setWord .b 1, setWord .b 2, setWord .b 3, setPair .b .low, setPair .b .high,
  clear .a, clear .b, clearBoth, copyInto .a, copyInto .b, isZero .a, isZero .b, equal, swap,
  combine .or .a, combine .or .b, combine .and .a, combine .and .b, combine .xor .a,
  combine .xor .b, storeRegister .a, storeRegister .b, loadRegister .a, loadRegister .b,
  hash .md5, checkHash .md5, hash .hash160, checkHash .hash160, hash .sha256, checkHash .sha256,
  blockTimestamp, creationTimestamp, previousBlockTimestamp, previousBlockHash, findTxAfter,
  txKind, txAmount, txTimestamp, txRandom, txMessage, txSender, creator,
  currentBalance, previousBalance, pay, payAll, payPrevious, sendMessage, addMinutes]

def ofCode? (c : UInt16) : Option Function := all.find? (·.code == c)

def ofMnemonic? (name : String) : Option Function := all.find? (·.mnemonic == name)

/-- A code is in the table for each function. -/
theorem ofCode?_code (f : Function) : ofCode? f.code = some f := by
  cases f with
  | getWord r i | setWord r i => revert i; cases r <;> decide
  | setPair r half => cases r <;> cases half <;> rfl
  | clear r | copyInto r | isZero r | storeRegister r | loadRegister r => cases r <;> rfl
  | combine op r => cases op <;> cases r <;> rfl
  | hash kind | checkHash kind => cases kind <;> rfl
  | _ => rfl

/-- Only its own code finds a function. -/
theorem code_of_ofCode? {c : UInt16} {f : Function} (h : ofCode? c = some f) : f.code = c := by
  simpa using List.find?_some h

end Function

end Pledge
