import ArmorPolicy.Line.Statement
import ArmorPolicy.Rule.Extent

/-!
# Network access

A network rule names an address family and a socket type or protocol.
-/

namespace ArmorPolicy

open Text Line

structure Network where
  domain : Extent String
  type : Extent String
  deriving DecidableEq, Repr

namespace Network

def domains : List String :=
  ["unspec", "unix", "inet", "ax25", "ipx", "appletalk", "netrom", "bridge", "atmpvc", "x25",
    "inet6", "rose", "netbeui", "security", "key", "netlink", "packet", "ash", "econet",
    "atmsvc", "rds", "sna", "irda", "pppox", "wanpipe", "llc", "ib", "mpls", "can", "tipc",
    "bluetooth", "iucv", "rxrpc", "isdn", "phonet", "ieee802154", "caif", "alg", "nfc",
    "vsock", "kcm", "qipcrtr", "smc", "xdp", "mctp"]

def types : List String := ["stream", "dgram", "seqpacket", "rdm", "raw", "packet"]

def protocols : List String := ["tcp", "udp", "icmp"]

def isType (word : String) : Bool := types.contains word || protocols.contains word

def read? : List Char → Option (Statement (List Char)) := keywordStatement "network" notNewline

def make (domain type : Extent String) : Checked Network :=
  match (domain.value?).filter fun word => !domains.contains word with
  | some word => refuse (.unknownNetworkDomain word)
  | none =>
    match (type.value?).filter fun word => !isType word with
    | some word => refuse (.unknownNetworkType word)
    | none => .ok ⟨domain, type⟩

/-- A word alone is an address family if it can be one. -/
def ofParts (body : List Char) : Checked Network :=
  match (words body).map String.ofList with
  | [] => make .all .all
  | [word] =>
    if domains.contains word then make (.only word) .all
    else if isType word then make .all (.only word)
    else refuse (.unknownNetworkWords [word])
  | [domain, type] => make (.only domain) (.only type)
  | words => refuse (.unknownNetworkWords words)

def text (network : Network) : String :=
  "network" ++ network.domain.text (" " ++ ·) ++ network.type.text (" " ++ ·)

def covers (network other : Network) : Bool :=
  network.domain.coversBy (· == ·) other.domain && network.type.coversBy (· == ·) other.type

end Network

end ArmorPolicy
