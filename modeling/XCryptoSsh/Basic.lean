import Mathlib.Data.List.Basic

namespace XCryptoSsh
set_option autoImplicit true

/-- Error values, kept apart as far as the package itself tells them apart. -/
inductive Err where
  | eof
  | unexpectedEOF
  | net (text : String) (timeout : Bool)
  | text (text : String)
  | cbcError (text : String)
  deriving DecidableEq, Repr

def Err.isTimeout : Err → Bool
  | .net _ timeout => timeout
  | _ => false

def Err.error : Err → String
  | .eof => "EOF"
  | .unexpectedEOF => "unexpected EOF"
  | .net message _ => message
  | .text message => message
  | .cbcError message => message

/-- A packet handed to or read from a `packetConn`: never empty, the first byte is its type. -/
structure Packet where
  tag : UInt8
  body : List UInt8
  deriving DecidableEq, Repr

def Packet.length (p : Packet) : Nat := p.body.length + 1

structure DirectionAlgorithms where
  cipher : String
  mac : String
  compression : String
  deriving DecidableEq, Repr

def chanSize : Nat := 16

def maxPacket : Nat := 256 * 1024

def msgIgnore : UInt8 := 2
def msgDebug : UInt8 := 4
def msgKexInit : UInt8 := 20
def msgNewKeys : UInt8 := 21

def unexpectedMessageError (expected got : UInt8) : Err :=
  .text ("ssh: unexpected message type " ++ toString got.toNat ++ " (expected " ++
    toString expected.toNat ++ ")")

end XCryptoSsh
