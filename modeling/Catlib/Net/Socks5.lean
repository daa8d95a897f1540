import Catlib.Buffer.Memory
import Catlib.Pack.RoundTrip

/-! # Requests and replies of socks5.c

A descriptor is the bytes it delivers, and a write is the bytes written: `io_read` comes back
short only at the end of the stream, and `recv` gives one datagram, as much of it as fits.
-/
namespace Catlib.Socks5

open Pack
open Buffer (readMem writeMem memcpy readMem_some writeMem_length writeMem_append writeMem_zero readMem_append)

def ctConnect : ℤ := 1
def ctBind : ℤ := 2
def ctUdp : ℤ := 3

def atIpv4 : ℕ := 1
def atDn : ℕ := 3
def atIpv6 : ℕ := 4

/-- `SOCKS5_MAXLEN`. -/
def maxlen : ℕ := 264

inductive Errno where
  | eio
  deriving DecidableEq

/-- `struct socks5addr`; the union is its 256 bytes. -/
structure Socks5Addr where
  type : ℕ
  len : ℕ
  addrU : List ℕ
  port : ℕ
  deriving DecidableEq

/-- `socks5_dn_to_s5a` of a string without its final zero. -/
def dnToS5a (s5a : Socks5Addr) (domainname : List ℕ) (port : ℕ) : Option Socks5Addr :=
  if domainname.length ≤ 255 then
    (writeMem s5a.addrU 0 (domainname ++ [0])).map fun u => ⟨atDn,domainname.length,u,port⟩
  else none

def respOk (rV rRc rAt : ℕ) (atype : ℤ) : ℤ × Option Errno :=
  if rV ≠ 5 then (-1,some .eio)
  else if (rAt : ℤ) ≠ atype ∧ rAt ≠ atIpv4 ∧ rAt ≠ atDn ∧ rAt ≠ atIpv6 then (-1,some .eio)
  else if (rAt : ℤ) ≠ atype ∧ atype ≠ atDn then (-1,some .eio)
  else if rRc ≠ 0 then (-1 - rRc,none)
  else (0,none)

/-- `unpack(buf,4,"bbbb",&r_v,&r_rc,&r_r,&r_at)`. -/
def unpackHead (little : Bool) (buf : List ℕ) : Option (ℕ × ℕ × ℕ) :=
  match unpack little 5 buf 4 "bbbb".toList [fun _ => 0,fun _ => 0,fun _ => 0,fun _ => 0] with
  | some (_,[rV,rRc,_,rAt]) => some (rV 0,rRc 0,rAt 0)
  | _ => none

/-- `unpack(p,2,"h",&port)`. -/
def unpackPort (little : Bool) (p : List ℕ) (port : ℕ) : Option ℕ :=
  match unpack little 2 p 2 "h".toList [storeAt little (fun _ => 0) 0 2 port] with
  | some (_,[m]) => some (loadAt little m 0 2)
  | _ => none

/-- What `socks5_recvresp` comes back with, and what it has left on the descriptor. -/
structure Resp where
  ret : ℤ
  errno : Option Errno
  outsa : Option Socks5Addr
  rest : List ℕ
  deriving DecidableEq

/-- The final zero of a domain name. -/
def endDn (u : List ℕ) (rAt len : ℕ) : Option (List ℕ) := if rAt = atDn then writeMem u len [0] else some u

/-- The end of `socks5_recvresp`: the address from `bp` on, if it was asked for. -/
def report (little : Bool) (buf : List ℕ) (bp len rAt : ℕ) (rest : List ℕ) : Option Socks5Addr → Option Resp
  | none => some ⟨0,none,none,rest⟩
  | some outsa => do
    let u ← memcpy outsa.addrU 0 buf bp len
    let u ← endDn u rAt len
    let p ← readMem buf (bp + len) 2
    let port ← unpackPort little p outsa.port
    return ⟨0,none,some ⟨rAt,len,u,port⟩,rest⟩

/-- `io_read` into a buffer: the amount, the buffer and the rest of the stream. -/
def ioRead (buf input : List ℕ) (n : ℕ) : Option (ℕ × List ℕ × List ℕ) :=
  (writeMem buf 0 (input.take n)).map fun b => ((input.take n).length,b,input.drop n)

def recvDatagram (little : Bool) (buf dgram : List ℕ) (atype : ℤ) (outsa : Option Socks5Addr) : Option Resp := do
  let (rv,buf,_) ← ioRead buf dgram maxlen
  if rv < 7 then return ⟨-1,some .eio,outsa,[]⟩
  let (rV,rRc,rAt) ← unpackHead little buf
  let (rok,err) := respOk rV rRc rAt atype
  if rok ≠ 0 then return ⟨rok,err,outsa,[]⟩
  let len := if rAt = atIpv4 then 4 else if rAt = atDn then buf.getD 4 0 else 16
  if (len : ℤ) > rv - 6 then return ⟨-1,some .eio,outsa,[]⟩
  report little buf 4 len rAt [] outsa

/-- The length of a domain name is read into the buffer. -/
def readLen (buf input : List ℕ) (rAt : ℕ) : Option (ℕ × List ℕ × List ℕ) :=
  if rAt = atDn then ioRead buf input 1 else some (1,buf,input)

def recvStream (little : Bool) (buf input : List ℕ) (atype : ℤ) (outsa : Option Socks5Addr) : Option Resp := do
  let (rv,buf,input) ← ioRead buf input 4
  if rv < 4 then return ⟨-1,none,outsa,input⟩
  let (rV,rRc,rAt) ← unpackHead little buf
  let (rok,err) := respOk rV rRc rAt atype
  if rok ≠ 0 then return ⟨rok,err,outsa,input⟩
  let (rv,buf,input) ← readLen buf input rAt
  if rv < 1 then return ⟨-1,none,outsa,input⟩
  let len := if rAt = atIpv4 then 4 else if rAt = atDn then buf.getD 0 0 else 16
  let (rv,buf,input) ← ioRead buf input (len + 2)
  if rv < len + 2 then return ⟨-1,none,outsa,input⟩
  report little buf 0 len rAt input outsa

/-- `socks5_recvresp`. -/
def recvresp (little : Bool) (buf input : List ℕ) (cmd atype : ℤ) (outsa : Option Socks5Addr) : Option Resp :=
  if cmd = ctUdp then recvDatagram little buf input atype outsa else recvStream little buf input atype outsa

def sendreqOk (cmd : ℤ) (s5a : Socks5Addr) : Prop :=
  ctConnect ≤ cmd ∧ cmd ≤ ctUdp ∧
    (s5a.type = atIpv4 ∧ s5a.len = 4 ∨ s5a.type = atDn ∧ s5a.len ≤ 255 ∨ s5a.type = atIpv6 ∧ s5a.len = 16)

instance (cmd : ℤ) (s5a : Socks5Addr) : Decidable (sendreqOk cmd s5a) := inferInstanceAs (Decidable (_ ∧ _))

/-- `socks5_sendreq`: the return value and the bytes written. -/
def sendreq (buf : List ℕ) (cmd : ℤ) (s5a : Socks5Addr) : Option (ℤ × List ℕ) :=
  if ¬sendreqOk cmd s5a then none
  else do
    let (n,head) ← pack 5 maxlen "bbbb".toList [.num 5,.num cmd,.num 0,.num s5a.type]
    let buf ← writeMem buf 0 head
    let ra ← readMem s5a.addrU 0 s5a.len
    let (m,tail) ← pack 3 (maxlen - n) "rh".toList [.raws [ra],.num s5a.port]
    let buf ← writeMem buf n tail
    let req ← readMem buf 0 (n + m)
    return (0,req)

/-! ## The protocol -/

/-- An address of RFC 1928. -/
structure Address where
  type : ℕ
  bytes : List ℕ
  valid : type = atIpv4 ∧ bytes.length = 4 ∨ type = atDn ∧ 1 ≤ bytes.length ∧ bytes.length ≤ 255 ∨
    type = atIpv6 ∧ bytes.length = 16
  byte : ∀ b ∈ bytes, b < 256

/-- The field of an address: a domain name has its length in front. -/
def Address.field (a : Address) : List ℕ := if a.type = atDn then a.bytes.length :: a.bytes else a.bytes

/-- Network order. -/
def portField (port : ℕ) : List ℕ := [port / 256,port % 256]

def request (cmd : ℕ) (a : Address) (port : ℕ) : List ℕ := 5 :: cmd :: 0 :: a.type :: (a.field ++ portField port)

/-- A reply with code 0. -/
def reply (rsv : ℕ) (a : Address) (port : ℕ) : List ℕ := 5 :: 0 :: rsv :: a.type :: (a.field ++ portField port)

/-- A `struct socks5addr` holds an address and a port; a domain name in it ends with a zero. -/
structure Stores (s5a : Socks5Addr) (a : Address) (port : ℕ) : Prop where
  type : s5a.type = a.type
  len : s5a.len = a.bytes.length
  size : s5a.addrU.length = 256
  bytes : s5a.addrU.take s5a.len = a.bytes
  port : s5a.port = port
  zero : a.type = atDn → s5a.addrU[s5a.len]? = some 0

variable {little : Bool} {buf : List ℕ} {a : Address} {port : ℕ} {s5a : Socks5Addr}

/-! ## Numbers and buffers -/

theorem byteAt_zero {v : ℕ} (hv : v < 256) : byteAt v 0 = v := by
  rw [byteAt,Nat.mul_zero,Nat.shiftRight_zero,show 0xFF = 2 ^ 8 - 1 from rfl,Nat.and_two_pow_sub_one_of_lt_two_pow hv]

theorem unpackHead_spec (little : Bool) {v rc r t : ℕ} (hv : v < 256) (hrc : rc < 256) (ht : t < 256) (tail : List ℕ) :
    unpackHead little (v :: rc :: r :: t :: tail) = some (v,rc,t) := by
  have hsig : significance little 1 0 = 0 := by
    cases little <;> rfl
  have h : unpackHead little (v :: rc :: r :: t :: tail) =
      some (byteAt v (significance little 1 0),byteAt rc (significance little 1 0),byteAt t (significance little 1 0)) := rfl
  rw [h,hsig,byteAt_zero hv,byteAt_zero hrc,byteAt_zero ht]

theorem portField_eq (hp : port < 2 ^ 16) : portField port = packBytes 2 true port := by
  have h : packBytes 2 true port = [byteAt port 1,byteAt port 0] := rfl
  rw [h,portField,byteAt,byteAt,show 0xFF = 2 ^ 8 - 1 from rfl,Nat.and_two_pow_sub_one_eq_mod,Nat.and_two_pow_sub_one_eq_mod,
    Nat.shiftRight_eq_div_pow,Nat.shiftRight_eq_div_pow]
  congr 1
  · omega
  · rw [Nat.mul_zero,Nat.pow_zero,Nat.div_one]

theorem unpackPort_spec (little : Bool) (hp : port < 2 ^ 16) (old : ℕ) : unpackPort little (portField port) old = some port := by
  have h : ∀ h l, unpackPort little [h,l] old =
      some (loadAt little (storeAt little (storeAt little (fun _ => 0) 0 2 old) 0 2 (joinBytes 2 true [h,l])) 0 2) := fun _ _ => rfl
  have hjoin : joinBytes 2 true (portField port) = port := by
    have hbytes := joinBytes_packBytes 2 port []
    rw [List.append_nil,← portField_eq hp] at hbytes
    rw [hbytes]
    exact Nat.mod_eq_of_lt hp
  rw [portField] at hjoin ⊢
  rw [h,hjoin,loadAt_storeAt hp]

theorem wrap_nat {k v : ℕ} (hv : v < 2 ^ k) : wrap k (v : ℤ) = v := by
  have h := wrap_nonneg (Int.natCast_nonneg v) (by exact_mod_cast hv : (v : ℤ) < 2 ^ k)
  exact_mod_cast h

theorem pack_head {cmd t : ℕ} (hc : cmd < 256) (ht : t < 256) :
    pack 5 maxlen "bbbb".toList [.num 5,.num cmd,.num 0,.num t] = some (4,[5,cmd,0,t]) := by
  have h : pack 5 maxlen "bbbb".toList [.num 5,.num cmd,.num 0,.num t] =
      some (4,[5,wrap 8 cmd &&& 0xFF,0,wrap 8 t &&& 0xFF]) := rfl
  rw [h,wrap_nat hc,wrap_nat ht,show 0xFF = 2 ^ 8 - 1 from rfl,Nat.and_two_pow_sub_one_of_lt_two_pow hc,
    Nat.and_two_pow_sub_one_of_lt_two_pow ht]

theorem pack_tail {ra : List ℕ} (hra : ra.length ≤ 255) (hp : port < 2 ^ 16) :
    pack 3 260 "rh".toList [.raws [ra],.num port] = some ((ra ++ portField port).length,ra ++ portField port) := by
  have hraw : packRaws 260 1 [ra] = some (ra,true) := by
    rw [packRaws,if_neg (by unfold psizMax; omega),packRaws]
    exact congrArg (fun b => some (b,true)) (List.append_nil ra)
  have h1 : packBody 260 ⟨"rh".toList,true,260,[.raws [ra],.num port],[]⟩ =
      some (.again ⟨"h".toList,true,260 - ra.length,[.num port],ra⟩) := by
    show ((packRaws 260 1 [ra]).bind fun x => some (if x.2 then
      Turn.again (PackSt.write ⟨"rh".toList,true,260,[.raws [ra],.num port],[]⟩ "h".toList x.1) else .leave (0,[] ++ x.1))) = _
    rw [hraw]
    rfl
  have hhalf : packVal .half true port = portField port := by
    rw [portField_eq hp,packVal,packHalf]
    exact congrArg _ (wrap_nat hp)
  have h2 : packBody 260 ⟨"h".toList,true,260 - ra.length,[.num port],ra⟩ =
      some (.again ⟨[],true,260 - ra.length - (portField port).length,[],ra ++ portField port⟩) := by
    show (if 0 > overflow .half ∨ psiz .half * max 1 0 > 260 - ra.length then some (Turn.leave (0,ra))
      else some (Turn.again (PackSt.write ⟨"h".toList,true,260 - ra.length,[.num port],ra⟩ [] (packVal .half true port ++ [])))) = _
    have hsize : psiz .half * max 1 0 = 2 := rfl
    have hroom : ¬(0 > overflow .half ∨ psiz .half * max 1 0 > 260 - ra.length) := by
      rw [hsize]
      omega
    rw [if_neg hroom,hhalf,List.append_nil]
    rfl
  have hpack : pack 3 260 "rh".toList [.raws [ra],.num port] =
      loop (packBody 260) 3 ⟨"rh".toList,true,260,[.raws [ra],.num port],[]⟩ := rfl
  rw [hpack,loop_again h1,loop_again h2]
  show some (260 - (260 - ra.length - 2),ra ++ portField port) = _
  rw [List.length_append]
  show _ = some (ra.length + 2,_)
  congr 2
  omega

theorem ioRead_spec {buf l tail : List ℕ} {n : ℕ} (hl : l.length = n) (hn : n ≤ buf.length) :
    ioRead buf (l ++ tail) n = some (n,l ++ buf.drop n,tail) := by
  subst hl
  rw [ioRead,List.take_left' rfl,List.drop_left' rfl,writeMem_zero hn]
  rfl

theorem Address.length_le (a : Address) : 1 ≤ a.bytes.length ∧ a.bytes.length ≤ 255 := by
  rcases a.valid with ⟨-,h⟩ | ⟨-,h1,h2⟩ | ⟨-,h⟩
  · omega
  · exact ⟨h1,h2⟩
  · omega

theorem Address.type_lt (a : Address) : a.type < 256 := by
  rcases a.valid with ⟨h,-⟩ | ⟨h,-⟩ | ⟨h,-⟩ <;> rw [h] <;> decide

/-! ## Requests -/

theorem dnToS5a_stores (hdn : a.type = atDn) (hs : s5a.addrU.length = 256) (port : ℕ) :
    ∃ s, dnToS5a s5a a.bytes port = some s ∧ Stores s a port := by
  obtain ⟨hlen1,hlen2⟩ := a.length_le
  have hw : writeMem s5a.addrU 0 (a.bytes ++ [0]) = _ := writeMem_zero (by
    rw [List.length_append,hs]
    exact Nat.succ_le_succ hlen2)
  rw [dnToS5a,if_pos hlen2,hw]
  refine ⟨_,rfl,hdn.symm,rfl,(writeMem_length hw).trans hs,?_,rfl,fun _ => ?_⟩
  · show (a.bytes ++ [0] ++ _).take a.bytes.length = a.bytes
    rw [List.append_assoc,List.take_left' rfl]
  · show (a.bytes ++ [0] ++ _)[a.bytes.length]? = some 0
    rw [List.append_assoc,List.getElem?_append_right (le_refl _),Nat.sub_self]
    rfl

theorem sendreq_spec (hbuf : buf.length = maxlen) {cmd : ℕ} (hc : 1 ≤ cmd ∧ cmd ≤ 3) (hs : Stores s5a a port)
    (hp : port < 2 ^ 16) :
    sendreq buf cmd s5a = some (0,5 :: cmd :: 0 :: a.type :: (a.bytes ++ portField port)) := by
  obtain ⟨hlen1,hlen2⟩ := a.length_le
  have hok : sendreqOk cmd s5a := by
    have h1 : (1 : ℤ) ≤ cmd := by exact_mod_cast hc.1
    have h2 : (cmd : ℤ) ≤ 3 := by exact_mod_cast hc.2
    refine ⟨h1,h2,?_⟩
    rw [hs.type,hs.len]
    rcases a.valid with h | ⟨h1,-,h2⟩ | h
    · exact Or.inl h
    · exact Or.inr (Or.inl ⟨h1,h2⟩)
    · exact Or.inr (Or.inr h)
  have hra : readMem s5a.addrU 0 s5a.len = some a.bytes := by
    rw [readMem_some (by rw [hs.size,hs.len]; omega),List.drop_zero,hs.bytes]
  have htail : (a.bytes ++ portField port).length ≤ (buf.drop 4).length := by
    rw [List.length_append,List.length_drop,hbuf]
    show a.bytes.length + 2 ≤ 264 - 4
    omega
  have hw1 : writeMem buf 0 [5,cmd,0,a.type] = some ([5,cmd,0,a.type] ++ buf.drop 4) :=
    writeMem_zero (by rw [hbuf]; show 4 ≤ 264; decide)
  have hw2 : writeMem ([5,cmd,0,a.type] ++ buf.drop 4) 4 (a.bytes ++ portField port) = _ := writeMem_append rfl htail
  have hread : readMem ([5,cmd,0,a.type] ++ (a.bytes ++ portField port) ++
      (buf.drop 4).drop (a.bytes ++ portField port).length) 0 (4 + (a.bytes ++ portField port).length) =
        some ([5,cmd,0,a.type] ++ (a.bytes ++ portField port)) := by
    refine readMem_append (x := []) _ rfl ?_
    show (a.bytes ++ portField port).length + 4 = _
    exact Nat.add_comm _ _
  rw [sendreq,if_neg (not_not.2 hok),hs.type,pack_head (by omega) a.type_lt,hs.port]
  simp only [Option.bind_eq_bind, Option.bind_some]
  rw [hw1,hra]
  simp only [Option.bind_some]
  rw [show maxlen - 4 = 260 from rfl,pack_tail hlen2 hp]
  simp only [Option.bind_some]
  rw [hw2]
  simp only [Option.bind_some]
  rw [hread]
  rfl

/-! ## Replies -/

theorem report_spec {pre rest : List ℕ} {bp len rAt : ℕ} (hb : buf = pre ++ (a.bytes ++ portField port) ++ rest)
    (hbp : pre.length = bp) (hlen : a.bytes.length = len) (hat : a.type = rAt) (hp : port < 2 ^ 16) (tail : List ℕ)
    {outsa : Socks5Addr} (ho : outsa.addrU.length = 256) :
    ∃ o', report little buf bp len rAt tail (some outsa) = some ⟨0,none,some o',tail⟩ ∧ Stores o' a port := by
  subst hb hbp hlen hat
  obtain ⟨hlen1,hlen2⟩ := a.length_le
  have hread : readMem (pre ++ (a.bytes ++ portField port) ++ rest) pre.length a.bytes.length = some a.bytes := by
    rw [← List.append_assoc pre,List.append_assoc _ (portField port)]
    exact readMem_append _ rfl rfl
  have hport : readMem (pre ++ (a.bytes ++ portField port) ++ rest) (pre.length + a.bytes.length) 2 = some (portField port) := by
    rw [← List.append_assoc pre]
    exact readMem_append _ (List.length_append) rfl
  have hw : memcpy outsa.addrU 0 (pre ++ (a.bytes ++ portField port) ++ rest) pre.length a.bytes.length =
      some (a.bytes ++ outsa.addrU.drop a.bytes.length) := by
    rw [memcpy,hread]
    exact writeMem_zero (by omega)
  have hlen : (a.bytes ++ outsa.addrU.drop a.bytes.length).length = 256 := by
    rw [List.length_append,List.length_drop]
    omega
  rw [report,hw,hport]
  simp only [Option.bind_eq_bind, Option.bind_some]
  rw [unpackPort_spec little hp,endDn]
  by_cases hdn : a.type = atDn
  · have hzero : writeMem (a.bytes ++ outsa.addrU.drop a.bytes.length) a.bytes.length [0] = _ :=
      writeMem_append rfl (by rw [List.length_drop]; show 1 ≤ _; omega)
    rw [if_pos hdn,hzero]
    refine ⟨_,rfl,rfl,rfl,(writeMem_length hzero).trans hlen,?_,rfl,fun _ => ?_⟩
    · show (a.bytes ++ [0] ++ _).take a.bytes.length = a.bytes
      rw [List.append_assoc,List.take_left' rfl]
    · show (a.bytes ++ [0] ++ _)[a.bytes.length]? = some 0
      rw [List.append_assoc,List.getElem?_append_right (le_refl _),Nat.sub_self]
      rfl
  · rw [if_neg hdn]
    exact ⟨_,rfl,rfl,rfl,hlen,List.take_left' rfl,rfl,fun h => (hdn h).elim⟩

theorem respOk_spec (a : Address) {atype : ℤ} (ht : atype = a.type ∨ atype = atDn) : respOk 5 0 a.type atype = (0,none) := by
  have hvalid : a.type = atIpv4 ∨ a.type = atDn ∨ a.type = atIpv6 := by
    rcases a.valid with ⟨h,-⟩ | ⟨h,-⟩ | ⟨h,-⟩
    · exact Or.inl h
    · exact Or.inr (Or.inl h)
    · exact Or.inr (Or.inr h)
  have h1 : ¬((a.type : ℤ) ≠ atype ∧ a.type ≠ atIpv4 ∧ a.type ≠ atDn ∧ a.type ≠ atIpv6) := by
    rintro ⟨-,h4,hd,h6⟩
    rcases hvalid with h | h | h
    · exact h4 h
    · exact hd h
    · exact h6 h
  have h2 : ¬((a.type : ℤ) ≠ atype ∧ atype ≠ atDn) := by
    rintro ⟨hne,hdn⟩
    rcases ht with h | h
    · exact hne h.symm
    · exact hdn h
  rw [respOk,if_neg (by decide),if_neg h1,if_neg h2,if_neg (by decide)]

theorem respOk_other (a : Address) {atype : ℤ} (ht : atype ≠ a.type) (hdn : atype ≠ atDn) :
    respOk 5 0 a.type atype = (-1,some .eio) := by
  rw [respOk,if_neg (by decide)]
  split
  · rfl
  · rw [if_pos ⟨fun h => ht h.symm,hdn⟩]

theorem Address.len_eq (a : Address) (hdn : a.type ≠ atDn) (n : ℕ) :
    (if a.type = atIpv4 then 4 else if a.type = atDn then n else 16) = a.bytes.length := by
  rcases a.valid with ⟨h,hl⟩ | ⟨h,-⟩ | ⟨h,hl⟩
  · rw [if_pos h,hl]
  · exact (hdn h).elim
  · rw [if_neg (by rw [h]; decide),if_neg hdn,hl]
/-! ## Replies on a stream and in a datagram -/

theorem unpackHead_reply (little : Bool) (a : Address) (rsv : ℕ) (tail : List ℕ) :
    unpackHead little ([5,0,rsv,a.type] ++ tail) = some (5,0,a.type) :=
  unpackHead_spec little (by decide) (by decide) a.type_lt tail

theorem readLen_spec (a : Address) (hbuf : buf.length = maxlen) (rest : List ℕ) :
    ∃ b, readLen buf (a.field ++ rest) a.type = some (1,b,a.bytes ++ rest) ∧ b.length = maxlen ∧
      (if a.type = atIpv4 then 4 else if a.type = atDn then b.getD 0 0 else 16) = a.bytes.length := by
  rw [readLen,Address.field]
  by_cases hdn : a.type = atDn
  · have hread : ioRead buf (a.bytes.length :: a.bytes ++ rest) 1 = some (1,[a.bytes.length] ++ buf.drop 1,a.bytes ++ rest) :=
      ioRead_spec (l := [a.bytes.length]) rfl (by rw [hbuf]; decide)
    rw [if_pos hdn,if_pos hdn,hread]
    refine ⟨_,rfl,?_,?_⟩
    · rw [List.length_append,List.length_drop,hbuf]
      rfl
    · rw [if_neg (by rw [hdn]; decide),if_pos hdn]
      rfl
  · rw [if_neg hdn,if_neg hdn]
    exact ⟨buf,rfl,hbuf,a.len_eq hdn _⟩

theorem recvStream_spec (hbuf : buf.length = maxlen) {rsv : ℕ} (hp : port < 2 ^ 16) {atype : ℤ}
    (ht : atype = a.type ∨ atype = atDn) (tail : List ℕ) {outsa : Socks5Addr} (ho : outsa.addrU.length = 256) :
    ∃ o', recvStream little buf (reply rsv a port ++ tail) atype (some outsa) = some ⟨0,none,some o',tail⟩ ∧
      Stores o' a port := by
  obtain ⟨hlen1,hlen2⟩ := a.length_le
  have hhead : ioRead buf (reply rsv a port ++ tail) 4 =
      some (4,[5,0,rsv,a.type] ++ buf.drop 4,a.field ++ portField port ++ tail) :=
    ioRead_spec (l := [5,0,rsv,a.type]) rfl (by rw [hbuf]; decide)
  rw [recvStream,hhead]
  simp only [Option.bind_eq_bind, Option.bind_some]
  rw [if_neg (lt_irrefl _)]
  rw [unpackHead_reply]
  simp only [Option.bind_some]
  rw [respOk_spec a ht,if_neg (not_not.2 rfl),List.append_assoc]
  have hb : ([5,0,rsv,a.type] ++ buf.drop 4).length = maxlen := by
    rw [List.length_append,List.length_drop,hbuf]
    rfl
  obtain ⟨b,hrl,hb,hlen⟩ := readLen_spec a hb (portField port ++ tail)
  have hbody : ioRead b (a.bytes ++ (portField port ++ tail)) (a.bytes.length + 2) =
      some (a.bytes.length + 2,a.bytes ++ portField port ++ b.drop (a.bytes.length + 2),tail) := by
    rw [← List.append_assoc]
    refine ioRead_spec List.length_append ?_
    rw [hb]
    show _ ≤ 264
    omega
  rw [hrl]
  simp only [Option.bind_some]
  rw [if_neg (lt_irrefl _),hlen,hbody]
  simp only [Option.bind_some]
  rw [if_neg (lt_irrefl _)]
  have hpre : a.bytes ++ portField port ++ b.drop (a.bytes.length + 2) =
      [] ++ (a.bytes ++ portField port) ++ b.drop (a.bytes.length + 2) := rfl
  exact report_spec hpre rfl rfl rfl hp tail ho

theorem recvDatagram_spec (hbuf : buf.length = maxlen) {rsv : ℕ} (hp : port < 2 ^ 16) {atype : ℤ}
    (ht : atype = a.type ∨ atype = atDn) (hdn : a.type ≠ atDn) {outsa : Socks5Addr} (ho : outsa.addrU.length = 256) :
    ∃ o', recvDatagram little buf (reply rsv a port) atype (some outsa) = some ⟨0,none,some o',[]⟩ ∧ Stores o' a port := by
  obtain ⟨hlen1,hlen2⟩ := a.length_le
  have hlong : 4 ≤ a.bytes.length := by
    rcases a.valid with ⟨-,h⟩ | ⟨h,-⟩ | ⟨-,h⟩
    · omega
    · exact (hdn h).elim
    · omega
  have hreply : reply rsv a port = [5,0,rsv,a.type] ++ (a.bytes ++ portField port) := by
    rw [reply,Address.field,if_neg hdn]
    rfl
  have hsize : (reply rsv a port).length = a.bytes.length + 6 := by
    rw [hreply,List.length_append,List.length_append]
    show 4 + (a.bytes.length + 2) = _
    omega
  have hread : ioRead buf (reply rsv a port) maxlen = some (a.bytes.length + 6,reply rsv a port ++ buf.drop (a.bytes.length + 6),[]) := by
    rw [ioRead,List.take_of_length_le (by rw [hsize]; show _ ≤ 264; omega),
      List.drop_of_length_le (by rw [hsize]; show _ ≤ 264; omega),writeMem_zero (by rw [hsize,hbuf]; show _ ≤ 264; omega),hsize]
    rfl
  have hhead : unpackHead little ([5,0,rsv,a.type] ++ (a.bytes ++ portField port) ++ buf.drop (a.bytes.length + 6)) =
      some (5,0,a.type) := unpackHead_reply little a rsv _
  rw [recvDatagram,hread]
  simp only [Option.bind_eq_bind, Option.bind_some]
  rw [if_neg (by omega),hreply]
  rw [hhead]
  simp only [Option.bind_some]
  rw [respOk_spec a ht,if_neg (not_not.2 rfl),a.len_eq hdn,if_neg (by push_cast; omega)]
  exact report_spec rfl rfl rfl rfl hp [] ho

theorem recvresp_other (hbuf : buf.length = maxlen) {rsv : ℕ} {cmd atype : ℤ} (ht : atype ≠ a.type) (hdn : atype ≠ atDn)
    (outsa : Option Socks5Addr) :
    ∃ rest, recvresp little buf (reply rsv a port) cmd atype outsa = some ⟨-1,some .eio,outsa,rest⟩ := by
  obtain ⟨hlen1,hlen2⟩ := a.length_le
  have hreply : reply rsv a port = [5,0,rsv,a.type] ++ (a.field ++ portField port) := rfl
  have hfield : 1 ≤ a.field.length ∧ a.field.length ≤ 256 := by
    rw [Address.field]
    split
    · exact ⟨Nat.le_add_left 1 _,Nat.succ_le_succ hlen2⟩
    · exact ⟨hlen1,by omega⟩
  have hsize : (reply rsv a port).length = a.field.length + 6 := by
    rw [hreply,List.length_append,List.length_append]
    show 4 + (a.field.length + 2) = _
    omega
  rw [recvresp]
  by_cases hudp : cmd = ctUdp
  · have hread : ioRead buf (reply rsv a port) maxlen =
        some (a.field.length + 6,reply rsv a port ++ buf.drop (a.field.length + 6),[]) := by
      rw [ioRead,List.take_of_length_le (by rw [hsize]; show _ ≤ 264; omega),
        List.drop_of_length_le (by rw [hsize]; show _ ≤ 264; omega),writeMem_zero (by rw [hsize,hbuf]; show _ ≤ 264; omega),
        hsize]
      rfl
    have hhead : unpackHead little ([5,0,rsv,a.type] ++ (a.field ++ portField port) ++ buf.drop (a.field.length + 6)) =
        some (5,0,a.type) := unpackHead_reply little a rsv _
    rw [if_pos hudp,recvDatagram,hread]
    simp only [Option.bind_eq_bind, Option.bind_some]
    rw [if_neg (by omega),hreply]
    rw [hhead]
    simp only [Option.bind_some]
    rw [respOk_other a ht hdn]
    exact ⟨_,rfl⟩
  · have hread : ioRead buf (reply rsv a port) 4 = some (4,[5,0,rsv,a.type] ++ buf.drop 4,a.field ++ portField port) :=
      ioRead_spec (l := [5,0,rsv,a.type]) rfl (by rw [hbuf]; decide)
    rw [if_neg hudp,recvStream,hread]
    simp only [Option.bind_eq_bind, Option.bind_some]
    rw [if_neg (lt_irrefl _)]
    rw [unpackHead_reply]
    simp only [Option.bind_some]
    rw [respOk_other a ht hdn]
    exact ⟨_,rfl⟩

/-- The request for an address, and what becomes of the reply with one. -/
theorem socks5_spec (little : Bool) (buf : List ℕ) (hbuf : buf.length = maxlen) (a : Address) (port : ℕ) (hp : port < 2 ^ 16) :
    (∀ cmd s5a, 1 ≤ cmd → cmd ≤ 3 → Stores s5a a port → a.type ≠ atDn →
      sendreq buf (cmd : ℕ) s5a = some (0,request cmd a port)) ∧
    (∀ rsv tail cmd (atype : ℤ) (outsa : Socks5Addr), cmd ≠ ctUdp → outsa.addrU.length = 256 → (atype = a.type ∨ atype = atDn) →
      ∃ o', recvresp little buf (reply rsv a port ++ tail) cmd atype (some outsa) = some ⟨0,none,some o',tail⟩ ∧
        Stores o' a port) ∧
    (∀ rsv (atype : ℤ) (outsa : Socks5Addr), outsa.addrU.length = 256 → (atype = a.type ∨ atype = atDn) → a.type ≠ atDn →
      ∃ o', recvresp little buf (reply rsv a port) ctUdp atype (some outsa) = some ⟨0,none,some o',[]⟩ ∧ Stores o' a port) ∧
    ∀ rsv cmd (atype : ℤ) outsa, atype ≠ a.type → atype ≠ atDn →
      ∃ rest, recvresp little buf (reply rsv a port) cmd atype outsa = some ⟨-1,some .eio,outsa,rest⟩ := by
  refine ⟨?_,?_,?_,?_⟩
  · intro cmd s5a hc1 hc2 hs hdn
    rw [sendreq_spec hbuf ⟨hc1,hc2⟩ hs hp,request,Address.field,if_neg hdn]
  · intro rsv tail cmd atype outsa hcmd ho ht
    rw [recvresp,if_neg hcmd]
    exact recvStream_spec hbuf hp ht tail ho
  · intro rsv atype outsa ho ht hdn
    rw [recvresp,if_pos rfl]
    exact recvDatagram_spec hbuf hp ht hdn ho
  · exact fun rsv cmd atype outsa ht hdn => recvresp_other hbuf ht hdn outsa

/-- `127.0.0.1`. -/
def localhost : Address := ⟨atIpv4,[127,0,0,1],Or.inl ⟨rfl,rfl⟩,by decide⟩

theorem socks5_spec_localhost : ∃ o', recvresp true (List.replicate 264 0) (reply 0 localhost 80 ++ []) ctConnect atIpv4
    (some ⟨0,0,List.replicate 256 0,0⟩) = some ⟨0,none,some o',[]⟩ ∧ Stores o' localhost 80 :=
  (socks5_spec true (List.replicate 264 0) List.length_replicate localhost 80 (by decide)).2.1 0 [] ctConnect atIpv4
    ⟨0,0,List.replicate 256 0,0⟩ (by decide) List.length_replicate (Or.inl rfl)

/-- The name `a`. -/
def nameA : Address := ⟨atDn,[97],Or.inr (Or.inl ⟨rfl,by decide,by decide⟩),by decide⟩

set_option maxRecDepth 4000 in
/-- The request for a name lacks its length; a reply with another type of address than the
request's is refused; a datagram with a name loses its last byte to the length. -/
theorem socks5_departs :
    (∃ s5a, dnToS5a ⟨0,0,List.replicate 256 0,0⟩ nameA.bytes 80 = some s5a ∧ Stores s5a nameA 80 ∧
      sendreq (List.replicate 264 0) ctConnect s5a = some (0,[5,1,0,3,97,0,80]) ∧
        request 1 nameA 80 = [5,1,0,3,1,97,0,80]) ∧
    (∃ rest, recvresp true (List.replicate 264 0) (reply 0 localhost 80) ctConnect atIpv6 none = some ⟨-1,some .eio,none,rest⟩) ∧
    ∃ o', recvresp true (List.replicate 264 0) (reply 0 nameA 80) ctUdp atDn (some ⟨0,0,List.replicate 256 0,0⟩) =
      some ⟨0,none,some o',[]⟩ ∧ o'.addrU.take o'.len = [1] ∧ o'.port = 97 * 256 := by
  have hlen : (List.replicate 264 0).length = maxlen := List.length_replicate
  have hdn : nameA.type = atDn := rfl
  have hsize : (⟨0,0,List.replicate 256 0,0⟩ : Socks5Addr).addrU.length = 256 := List.length_replicate
  obtain ⟨s5a,hs5a,hstores⟩ := dnToS5a_stores hdn hsize 80
  refine ⟨⟨s5a,hs5a,hstores,sendreq_spec hlen ⟨le_refl 1,by decide⟩ hstores (by decide),rfl⟩,
    recvresp_other hlen (by decide) (by decide) none,_,rfl,rfl,rfl⟩

end Catlib.Socks5
