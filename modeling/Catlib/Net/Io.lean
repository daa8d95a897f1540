import Catlib.Net.Socks5

/-! # Transfers in pieces: io.c, and a session of socks5.c

A system call moves some of the bytes that it was asked for, or it fails. What the next calls on a
descriptor come to is part of its state; a call after these moves all that it can.
-/
namespace Catlib.Io
open Buffer (readMem writeMem readMem_some writeMem_zero writeMem_append writeMem_length)
open Socks5 hiding Errno

inductive Errno where
  | eintr
  | eagain
  | eio
  | eacces
  | other (n : ℕ)
  deriving DecidableEq

/-- What a `read` or a `write` comes to. -/
inductive Sys where
  | moves (n : ℕ)
  | fails (e : Errno)
  deriving DecidableEq

/-- A descriptor and `errno`: the calls to come, the bytes to be read and the ones written. -/
structure Fd where
  sys : List Sys
  input : List ℕ
  output : List ℕ
  errno : Errno
  deriving DecidableEq

def Fd.next (fd : Fd) (n : ℕ) : Sys × Fd :=
  match fd.sys with
  | [] => (.moves n,fd)
  | s :: sys => (s,{ fd with sys := sys })

/-- `read` to `p` of a buffer; a `read` of nothing is the end of the stream. -/
def read (n p : ℕ) (s : Fd × List ℕ) : Option (Option ℕ × Fd × List ℕ) :=
  match s.1.next n with
  | (.fails e,fd) => some (none,{ fd with errno := e },s.2)
  | (.moves k,fd) => (writeMem s.2 p (fd.input.take (min k n))).map fun buf =>
    (some (fd.input.take (min k n)).length,{ fd with input := fd.input.drop (min k n) },buf)

/-- `write` from `p` of a buffer. -/
def write (n p : ℕ) (s : Fd × List ℕ) : Option (Option ℕ × Fd × List ℕ) :=
  match s.1.next n with
  | (.fails e,fd) => some (none,{ fd with errno := e },s.2)
  | (.moves k,fd) => (readMem s.2 p n).map fun l =>
    (some (l.take k).length,{ fd with output := fd.output ++ l.take k },s.2)

/-- The loop of `io_read` and `io_write`, `n` bytes having been moved. -/
def moveBody (call : ℕ → ℕ → Fd × List ℕ → Option (Option ℕ × Fd × List ℕ)) (nb : ℕ) :
    ℕ × Fd × List ℕ → Option (Turn (ℕ × Fd × List ℕ) (ℤ × Fd × List ℕ))
  | (n,s) =>
    if n < nb then
      (call (nb - n) n s).map fun
        | (none,s) => if s.1.errno = .eintr ∨ s.1.errno = .eagain then .again (n,s) else .leave (-1,s)
        | (some 0,s) => .leave (n,s)
        | (some k,s) => .again (n + k,s)
    else some (.leave (n,s))

def ioRead (fd : Fd) (buf : List ℕ) (nb fuel : ℕ) : Option (ℤ × Fd × List ℕ) := loop (moveBody read nb) fuel (0,fd,buf)

def ioWrite (fd : Fd) (buf : List ℕ) (nb fuel : ℕ) : Option (ℤ × Fd × List ℕ) := loop (moveBody write nb) fuel (0,fd,buf)

/-! ## Sessions -/

/-- `unpack(buf,2,"bb",&v,&m)`. -/
def unpackMethod (little : Bool) (buf : List ℕ) : Option (ℕ × ℕ) :=
  match Pack.unpack little 3 buf 2 "bb".toList [fun _ => 0,fun _ => 0] with
  | some (_,[v,m]) => some (v 0,m 0)
  | _ => none

/-- `socks5_anon_probe`, with the buffer it has on the stack. -/
def anonProbe (little : Bool) (fd : Fd) (buf : List ℕ) (fuel : ℕ) : Option (ℤ × Fd) := do
  let (len,req) ← Pack.pack 4 64 "bbb".toList [.num 5,.num 1,.num 0]
  let buf ← writeMem buf 0 req
  let (n,fd,buf) ← ioWrite fd buf len fuel
  if n < len then return (-1,fd)
  let (n,fd,buf) ← ioRead fd buf 2 fuel
  if n < 2 then return (-1,fd)
  let (v,m) ← unpackMethod little buf
  if v ≠ 5 then return (-1,{ fd with errno := .eio })
  if m ≠ 0 then return (-1 - m,{ fd with errno := .eacces })
  return (0,fd)

/-- `socks5_sendreq`: `sendreq` makes the request. -/
def sendreqFd (fd : Fd) (buf : List ℕ) (cmd : ℤ) (s5a : Socks5Addr) (fuel : ℕ) : Option (ℤ × Fd) := do
  let (_,req) ← sendreq buf cmd s5a
  let buf ← writeMem buf 0 req
  let (n,fd,_) ← ioWrite fd buf req.length fuel
  if n < req.length then return (-1,fd) else return (0,fd)

/-- The end of `socks5_recvresp`, from the length of the address on. -/
def recvAddr (little : Bool) (fd : Fd) (buf : List ℕ) (len rAt : ℕ) (outsa : Option Socks5Addr) (fuel : ℕ) :
    Option (ℤ × Fd × Option Socks5Addr) := do
  let (n,fd,buf) ← ioRead fd buf (len + 2) fuel
  if n < len + 2 then return (-1,fd,outsa)
  let r ← report little buf 0 len rAt fd.input outsa
  return (r.ret,fd,r.outsa)

/-- `socks5_recvresp` on a stream. -/
def recvrespFd (little : Bool) (fd : Fd) (buf : List ℕ) (atype : ℤ) (outsa : Option Socks5Addr) (fuel : ℕ) :
    Option (ℤ × Fd × Option Socks5Addr) := do
  let (n,fd,buf) ← ioRead fd buf 4 fuel
  if n < 4 then return (-1,fd,outsa)
  let (rV,rRc,rAt) ← unpackHead little buf
  let (rok,err) := respOk rV rRc rAt atype
  if rok ≠ 0 then return (rok,{ fd with errno := err.elim fd.errno fun _ => .eio },outsa)
  if rAt = atIpv4 then recvAddr little fd buf 4 rAt outsa fuel
  else if rAt = atDn then
    let (n,fd,buf) ← ioRead fd buf 1 fuel
    if n < 1 then return (-1,fd,outsa)
    recvAddr little fd buf (buf.getD 0 0) rAt outsa fuel
  else recvAddr little fd buf 16 rAt outsa fuel

/-- `socks5_anon_conn`, with the buffers of the three calls. -/
def anonConn (little : Bool) (fd : Fd) (buf1 buf2 buf3 : List ℕ) (insa : Socks5Addr) (outsa : Option Socks5Addr) (fuel : ℕ) :
    Option (ℤ × Fd × Option Socks5Addr) := do
  let (rv,fd) ← anonProbe little fd buf1 fuel
  if rv ≠ 0 then return (rv,fd,outsa)
  let (rv,fd) ← sendreqFd fd buf2 ctConnect insa fuel
  if rv ≠ 0 then return (rv,fd,outsa)
  recvrespFd little fd buf3 insa.type outsa fuel

/-! ## Whole transfers -/

variable {fd : Fd} {buf : List ℕ} {nb fuel n : ℕ}

/-- Short calls and interruptions, but no error, and no end before the stream's. -/
def Calm (fd : Fd) : Prop := ∀ s ∈ fd.sys, s ≠ .moves 0 ∧ ∀ e, s = .fails e → e = .eintr ∨ e = .eagain

theorem Calm.head {s : Sys} (h : Calm fd) (hs : fd.sys.head? = some s) :
    s ≠ .moves 0 ∧ ∀ e, s = .fails e → e = .eintr ∨ e = .eagain := h s (List.mem_of_mem_head? hs)

theorem Calm.suffix {fd' : Fd} (h : Calm fd) (hs : fd'.sys <:+ fd.sys) : Calm fd' := fun s hmem => h s (hs.subset hmem)

theorem next_eq (fd : Fd) (n : ℕ) : fd.next n = (fd.sys.head?.getD (.moves n),{ fd with sys := fd.sys.tail }) := by
  rw [Fd.next]
  split
  · rename_i h
    cases fd
    cases h
    rfl
  · rename_i h
    rw [h]
    rfl

theorem next_cases {s : Sys} (h : fd.sys.head?.getD (.moves n) = s) : fd.sys.head? = some s ∨ s = .moves n := by
  cases hs : fd.sys.head? with
  | none => exact Or.inr (by rw [← h,hs]; rfl)
  | some t => exact Or.inl (by rw [← h,hs]; rfl)

/-- What a call does after `n` bytes of `nb`: `I` says what has been moved, `E` that there is no more. -/
def Moves (call : ℕ → ℕ → Fd × List ℕ → Option (Option ℕ × Fd × List ℕ)) (nb : ℕ) (I : ℕ → Fd × List ℕ → Prop)
    (E : ℕ → Prop) : Prop :=
  ∀ n s, n < nb → I n s → ∃ r s', call (nb - n) n s = some (r,s') ∧ s'.1.sys = s.1.sys.tail ∧
    (r = none ∧ s.1.sys.head? = some (.fails s'.1.errno) ∧ I n s' ∨
      ∃ k, r = some k ∧ n + k ≤ nb ∧ I (n + k) s' ∧ (k = 0 → s.1.sys.head? = some (.moves 0) ∨ E n))

theorem Moves.loop {call : ℕ → ℕ → Fd × List ℕ → Option (Option ℕ × Fd × List ℕ)} {I : ℕ → Fd × List ℕ → Prop}
    {E : ℕ → Prop} (hcall : Moves call nb I E) {s : Fd × List ℕ} (hs : I 0 s) (hf : s.1.sys.length + nb < fuel) :
    ∃ r n s', Catlib.loop (moveBody call nb) fuel (0,s) = some (r,s') ∧ I n s' ∧ n ≤ nb ∧ s'.1.sys <:+ s.1.sys ∧
      (r = (n : ℤ) ∧ (Calm s.1 → n = nb ∨ E n) ∨ r = -1 ∧ ¬Calm s.1) := by
  suffices hmain : ∃ q : ℤ × Fd × List ℕ, Catlib.loop (moveBody call nb) fuel (0,s) = some q ∧
      ∃ n, I n q.2 ∧ n ≤ nb ∧ q.2.1.sys <:+ s.1.sys ∧ (q.1 = (n : ℤ) ∧ (Calm s.1 → n = nb ∨ E n) ∨ q.1 = -1 ∧ ¬Calm s.1) by
    obtain ⟨⟨r,s'⟩,hrun,n,hres⟩ := hmain
    exact ⟨r,n,s',hrun,hres⟩
  refine loop_total (I := fun m t => m = t.2.1.sys.length + (nb - t.1) ∧ t.1 ≤ nb ∧ I t.1 t.2 ∧ t.2.1.sys <:+ s.1.sys)
    ?_ ⟨rfl,Nat.zero_le _,hs,List.suffix_refl _⟩ hf
  rintro m ⟨n,t⟩ ⟨rfl,hle,hI,hsuf⟩
  rcases hle.lt_or_eq with hlt | rfl
  · obtain ⟨r,t',hc,htail,hr⟩ := hcall n t hlt hI
    have hsuf' : t'.1.sys <:+ s.1.sys := by
      rw [htail]
      exact (List.tail_suffix _).trans hsuf
    have hless : t'.1.sys.length ≤ t.1.sys.length := by
      rw [htail,List.length_tail]
      exact Nat.sub_le _ _
    rcases hr with ⟨rfl,hhead,hI'⟩ | ⟨k,rfl,hk,hI',hzero⟩
    · have hpos : t'.1.sys.length < t.1.sys.length := by
        rw [htail,List.length_tail]
        have := List.length_pos_of_mem (List.mem_of_mem_head? hhead)
        omega
      by_cases he : t'.1.errno = .eintr ∨ t'.1.errno = .eagain
      · exact Or.inl ⟨(n,t'),_,by simp [moveBody, hlt, hc, he],by dsimp only; omega,rfl,hle,hI',hsuf'⟩
      · refine Or.inr ⟨(-1,t'),by simp [moveBody, hlt, hc, he],n,hI',hle,hsuf',Or.inr ⟨rfl,fun hcalm => he ?_⟩⟩
        exact (Calm.head (Calm.suffix hcalm hsuf) hhead).2 _ rfl
    · cases k with
      | zero =>
        refine Or.inr ⟨(n,t'),by simp [moveBody, hlt, hc],n,hI',hle,hsuf',Or.inl ⟨rfl,fun hcalm => ?_⟩⟩
        rcases hzero rfl with hhead | hE
        · exact absurd rfl (Calm.head (Calm.suffix hcalm hsuf) hhead).1
        · exact Or.inr hE
      | succ k => exact Or.inl ⟨(n + (k + 1),t'),_,by simp [moveBody, hlt, hc],by dsimp only; omega,rfl,hk,hI',hsuf'⟩
  · exact Or.inr ⟨(n,t),by simp [moveBody],n,hI,le_rfl,hsuf,Or.inl ⟨rfl,fun _ => Or.inl rfl⟩⟩

/-- `io_read` reads all of the stream that it was asked for, whatever pieces it comes in; else it says so. -/
theorem ioRead_run (hnb : nb ≤ buf.length) (hf : fd.sys.length + nb < fuel) :
    ∃ r x fd', ioRead fd buf nb fuel = some (r,fd',x ++ buf.drop x.length) ∧ fd.input = x ++ fd'.input ∧ x.length ≤ nb ∧
      fd'.output = fd.output ∧ fd'.sys <:+ fd.sys ∧
      (r = (x.length : ℤ) ∧ (Calm fd → x.length = nb ∨ fd'.input = []) ∨ r = -1 ∧ ¬Calm fd) := by
  have hcall : Moves read nb (fun n s => ∃ x, fd.input = x ++ s.1.input ∧ x.length = n ∧ s.2 = x ++ buf.drop n ∧
      s.1.output = fd.output) fun n => n = fd.input.length := by
    rintro n ⟨fd₁,b⟩ hn ⟨x,hin,rfl,rfl,hout⟩
    rw [read,next_eq]
    rcases hx : fd₁.sys.head?.getD (.moves (nb - x.length)) with k | e
    · set l := fd₁.input.take (min k (nb - x.length)) with hl
      have hlen : l.length ≤ nb - x.length := (List.length_take_le _ _).trans (Nat.min_le_right _ _)
      have hw : writeMem (x ++ buf.drop x.length) x.length l = some (x ++ l ++ (buf.drop x.length).drop l.length) :=
        writeMem_append rfl (by rw [List.length_drop]; omega)
      dsimp only
      rw [hw]
      refine ⟨_,_,rfl,rfl,Or.inr ⟨l.length,rfl,by omega,⟨x ++ l,?_,List.length_append,?_,hout⟩,fun hzero => ?_⟩⟩
      · rw [hin,List.append_assoc,hl,List.take_append_drop]
      · rw [List.drop_drop]
      · rcases List.take_eq_nil_iff.mp (List.length_eq_zero_iff.mp hzero) with hk | hnil
        · rcases next_cases hx with hhead | hk'
          · exact Or.inl (hhead.trans (by congr 2; omega))
          · cases hk'
            omega
        · exact Or.inr (by rw [hin,hnil,List.append_nil])
    · rcases next_cases hx with hhead | hk
      · exact ⟨none,_,rfl,rfl,Or.inl ⟨rfl,hhead,x,hin,rfl,rfl,hout⟩⟩
      · cases hk
  obtain ⟨r,n,⟨fd',b⟩,hrun,⟨x,hin,rfl,hb,hout⟩,hle,hsuf,hr⟩ := hcall.loop (s := (fd,buf)) ⟨[],rfl,rfl,rfl,rfl⟩ hf
  refine ⟨r,x,fd',by rw [ioRead,hrun]; exact congrArg (fun b => some (r,fd',b)) hb,hin,hle,hout,hsuf,hr.imp_left ?_⟩
  refine And.imp_right fun h hcalm => (h hcalm).imp_right fun hend => ?_
  rw [hin,List.length_append] at hend
  exact List.length_eq_zero_iff.mp (Nat.left_eq_add.mp hend)

theorem ioWrite_run (fd : Fd) (buf : List ℕ) (hnb : nb ≤ buf.length) (hf : fd.sys.length + nb < fuel) :
    ∃ r n fd', ioWrite fd buf nb fuel = some (r,fd',buf) ∧ fd'.output = fd.output ++ buf.take n ∧ n ≤ nb ∧
      fd'.input = fd.input ∧ fd'.sys <:+ fd.sys ∧ (r = (n : ℤ) ∧ (Calm fd → n = nb) ∨ r = -1 ∧ ¬Calm fd) := by
  have hcall : Moves write nb (fun n s => s.2 = buf ∧ s.1.output = fd.output ++ buf.take n ∧ s.1.input = fd.input)
      fun _ => False := by
    rintro n ⟨fd₁,b⟩ hn ⟨hb,hout,hin⟩
    obtain rfl : b = buf := hb
    rw [write,next_eq]
    rcases hx : fd₁.sys.head?.getD (.moves (nb - n)) with k | e
    · have hlen : (((b.drop n).take (nb - n)).take k).length = min k (nb - n) := by
        rw [List.length_take,List.length_take,List.length_drop]
        omega
      dsimp only
      rw [readMem_some (by omega)]
      refine ⟨_,_,rfl,rfl,Or.inr ⟨_,rfl,by omega,⟨rfl,?_,hin⟩,fun hzero => Or.inl ?_⟩⟩
      · rw [hlen,hout,List.append_assoc,List.take_take,List.take_add]
      · rcases next_cases hx with hhead | hk
        · exact hhead.trans (by congr 2; omega)
        · cases hk
          omega
    · rcases next_cases hx with hhead | hk
      · exact ⟨none,_,rfl,rfl,Or.inl ⟨rfl,hhead,rfl,hout,hin⟩⟩
      · cases hk
  obtain ⟨r,n,⟨fd',b⟩,hrun,⟨rfl,hout,hin⟩,hle,hsuf,hr⟩ :=
    hcall.loop (s := (fd,buf)) ⟨rfl,by rw [List.take_zero,List.append_nil],rfl⟩ hf
  exact ⟨r,n,fd',hrun,hout,hle,hin,hsuf,hr.imp_left (And.imp_right fun h hcalm => (h hcalm).resolve_right id)⟩

theorem read_whole (buf : List ℕ) (nb : ℕ) (l : List ℕ) {tail : List ℕ} (hin : fd.input = l ++ tail) (hl : l.length = nb) (hnb : nb ≤ buf.length)
    (hf : fd.sys.length + nb < fuel) :
    ∃ r fd' b, ioRead fd buf nb fuel = some (r,fd',b) ∧ fd'.output = fd.output ∧ fd'.sys <:+ fd.sys ∧
      (r = (nb : ℤ) ∧ fd'.input = tail ∧ b = l ++ buf.drop nb ∨ r < (nb : ℤ) ∧ ¬Calm fd) := by
  obtain ⟨r,x,fd',hrun,hx,hle,hout,hsuf,hr⟩ := ioRead_run hnb hf
  refine ⟨r,fd',_,hrun,hout,hsuf,?_⟩
  rcases hr with ⟨rfl,hcalm⟩ | ⟨rfl,hno⟩
  · rcases hle.lt_or_eq with hlt | heq
    · refine Or.inr ⟨by exact_mod_cast hlt,fun hc => ?_⟩
      rcases hcalm hc with heq | hnil
      · omega
      · have hlen := congrArg List.length (hx.symm.trans hin)
        rw [hnil,List.length_append,List.length_append,List.length_nil] at hlen
        omega
    · obtain ⟨rfl,rfl⟩ := List.append_inj (hx.symm.trans hin) (heq.trans hl.symm)
      exact Or.inl ⟨by rw [heq],rfl,by rw [heq]⟩
  · exact Or.inr ⟨by omega,hno⟩

theorem write_whole (fd : Fd) (req rest : List ℕ) (hf : fd.sys.length + req.length < fuel) :
    ∃ r n fd', ioWrite fd (req ++ rest) req.length fuel = some (r,fd',req ++ rest) ∧ fd'.input = fd.input ∧ fd'.sys <:+ fd.sys ∧
      fd'.output = fd.output ++ req.take n ∧ (r = (req.length : ℤ) ∧ n = req.length ∨ r < (req.length : ℤ) ∧ ¬Calm fd) := by
  obtain ⟨r,n,fd',hrun,hout,hle,hin,hsuf,hr⟩ := ioWrite_run fd (req ++ rest) (by simp) hf
  rw [List.take_append_of_le_length hle] at hout
  refine ⟨r,n,fd',hrun,hin,hsuf,hout,?_⟩
  rcases hr with ⟨rfl,hcalm⟩ | ⟨rfl,hno⟩
  · rcases hle.lt_or_eq with hlt | rfl
    · exact Or.inr ⟨by exact_mod_cast hlt,fun hc => hlt.ne (hcalm hc)⟩
    · exact Or.inl ⟨rfl,rfl⟩
  · exact Or.inr ⟨by omega,hno⟩

/-! ## Whole sessions -/

variable {little : Bool} {a b : Address} {port bport rsv m : ℕ} {insa outsa : Socks5Addr} {tail buf1 buf2 buf3 : List ℕ}

/-- No authentication is offered. -/
def hello : List ℕ := [5,1,0]

theorem unpackMethod_spec (little : Bool) {v : ℕ} (hv : v < 256) (hm : m < 256) (tail : List ℕ) :
    unpackMethod little (v :: m :: tail) = some (v,m) := by
  have hsig : Pack.significance little 1 0 = 0 := by
    cases little <;> rfl
  have h : unpackMethod little (v :: m :: tail) =
      some (Pack.byteAt v (Pack.significance little 1 0),Pack.byteAt m (Pack.significance little 1 0)) := rfl
  rw [h,hsig,byteAt_zero hv,byteAt_zero hm]

theorem anonProbe_spec (little : Bool) (hbuf : buf.length = 64) (hm : m < 256) (hin : fd.input = 5 :: m :: tail) (hf : fd.sys.length + 3 < fuel) :
    ∃ r n fd', anonProbe little fd buf fuel = some (r,fd') ∧ fd'.output = fd.output ++ hello.take n ∧ fd'.sys <:+ fd.sys ∧
      (m = 0 ∧ r = 0 ∧ fd'.input = tail ∧ n = 3 ∨ m ≠ 0 ∧ r = -1 - m ∧ fd'.errno = .eacces ∧ fd'.input = tail ∧ n = 3 ∨
        r = -1 ∧ ¬Calm fd) := by
  have hpack : Pack.pack 4 64 "bbb".toList [.num 5,.num 1,.num 0] = some (3,hello) := rfl
  have hw : writeMem buf 0 hello = some (hello ++ buf.drop 3) := writeMem_zero (by rw [hbuf]; decide)
  obtain ⟨r,n,fd₁,hrun,hin₁,hsuf,hout,hr⟩ := write_whole fd hello (buf.drop 3) hf
  rw [anonProbe,hpack]
  simp only [Option.bind_eq_bind, Option.bind_some]
  rw [hw]
  simp only [Option.bind_some]
  rw [show ioWrite fd (hello ++ buf.drop 3) 3 fuel = _ from hrun]
  simp only [Option.bind_some]
  rcases hr with ⟨rfl,rfl⟩ | ⟨hlt,hno⟩
  · have hle := hsuf.length_le
    have hlen : 2 ≤ (hello ++ buf.drop 3).length := by simp [hello]
    obtain ⟨r,fd₂,b₂,hrun₂,hout₂,hsuf₂,hr⟩ := read_whole _ 2 [5,m] (hin₁.trans hin) rfl hlen
      (show _ < fuel by omega)
    rw [if_neg (by decide),hrun₂]
    simp only [Option.bind_some]
    rcases hr with ⟨rfl,hin₂,rfl⟩ | ⟨hlt,hno⟩
    · rw [if_neg (by decide),show [5,m] ++ _ = 5 :: m :: _ from rfl,unpackMethod_spec little (by decide) hm]
      simp only [Option.bind_some]
      rw [if_neg (by decide)]
      by_cases hm0 : m = 0
      · rw [if_neg (by simpa using hm0)]
        exact ⟨_,3,_,rfl,hout₂.trans hout,hsuf₂.trans hsuf,Or.inl ⟨hm0,rfl,hin₂,rfl⟩⟩
      · rw [if_pos (by simpa using hm0)]
        exact ⟨_,3,_,rfl,hout₂.trans hout,hsuf₂.trans hsuf,Or.inr (Or.inl ⟨hm0,rfl,rfl,hin₂,rfl⟩)⟩
    · rw [if_pos (by exact_mod_cast hlt)]
      exact ⟨_,3,_,rfl,hout₂.trans hout,hsuf₂.trans hsuf,Or.inr (Or.inr ⟨rfl,fun hc => hno (hc.suffix hsuf)⟩)⟩
  · rw [if_pos (by exact_mod_cast hlt)]
    exact ⟨_,n,_,rfl,hout,hsuf,Or.inr (Or.inr ⟨rfl,hno⟩)⟩

theorem sendreqFd_spec (hbuf : buf.length = maxlen) (hs : Stores insa a port) (hp : port < 2 ^ 16) (hdn : a.type ≠ atDn)
    (hf : fd.sys.length + maxlen < fuel) :
    ∃ r n fd', sendreqFd fd buf ctConnect insa fuel = some (r,fd') ∧ fd'.output = fd.output ++ (request 1 a port).take n ∧
      fd'.input = fd.input ∧ fd'.sys <:+ fd.sys ∧ (r = 0 ∧ n = (request 1 a port).length ∨ r = -1 ∧ ¬Calm fd) := by
  have hreq : sendreq buf ctConnect insa = some (0,request 1 a port) := by
    rw [request,Address.field,if_neg hdn]
    exact sendreq_spec hbuf (show 1 ≤ 1 ∧ 1 ≤ 3 by decide) hs hp
  have hlen : (request 1 a port).length ≤ maxlen := by
    rw [request,Address.field,if_neg hdn]
    have hle := a.length_le.2
    simp only [List.length_cons, List.length_append, portField, List.length_nil, maxlen]
    omega
  obtain ⟨r,n,fd₁,hrun,hin,hsuf,hout,hr⟩ := write_whole fd (request 1 a port)
    (buf.drop (request 1 a port).length) (show _ < fuel by omega)
  rw [sendreqFd,hreq]
  simp only [Option.bind_eq_bind, Option.bind_some]
  rw [writeMem_zero (by omega)]
  simp only [Option.bind_some]
  rw [hrun]
  simp only [Option.bind_some]
  rcases hr with ⟨rfl,rfl⟩ | ⟨hlt,hno⟩
  · rw [if_neg (lt_irrefl _)]
    exact ⟨_,_,_,rfl,hout,hin,hsuf,Or.inl ⟨rfl,rfl⟩⟩
  · rw [if_pos hlt]
    exact ⟨_,n,_,rfl,hout,hin,hsuf,Or.inr ⟨rfl,hno⟩⟩

theorem recvAddr_spec (little : Bool) (hbuf : buf.length = maxlen) (hp : bport < 2 ^ 16) (ho : outsa.addrU.length = 256)
    (hin : fd.input = b.bytes ++ portField bport ++ tail) (hf : fd.sys.length + maxlen < fuel) :
    ∃ r fd' o, recvAddr little fd buf b.bytes.length b.type (some outsa) fuel = some (r,fd',o) ∧ fd'.output = fd.output ∧
      (r = 0 ∧ fd'.input = tail ∧ (∃ s, o = some s ∧ Stores s b bport) ∨ r = -1 ∧ o = some outsa ∧ ¬Calm fd) := by
  have hle : b.bytes.length + 2 ≤ maxlen := (Nat.add_le_add_right b.length_le.2 2).trans (by decide)
  obtain ⟨r,fd₁,b₁,hrun,hout,-,hr⟩ := read_whole buf (b.bytes.length + 2) _ hin List.length_append (by omega)
    (show _ < fuel by omega)
  rw [recvAddr,hrun]
  simp only [Option.bind_eq_bind, Option.bind_some]
  rcases hr with ⟨rfl,rfl,rfl⟩ | ⟨hlt,hno⟩
  · obtain ⟨s,hs,hst⟩ : ∃ o', report little (b.bytes ++ portField bport ++ buf.drop (b.bytes.length + 2)) 0 b.bytes.length b.type
        fd₁.input (some outsa) = some ⟨0,none,some o',fd₁.input⟩ ∧ Stores o' b bport :=
      report_spec (show _ = [] ++ (b.bytes ++ portField bport) ++ _ from rfl) rfl rfl rfl hp fd₁.input ho
    rw [if_neg (by push_cast; exact lt_irrefl _),hs]
    exact ⟨0,_,_,rfl,hout,Or.inl ⟨rfl,rfl,s,rfl,hst⟩⟩
  · rw [if_pos (by exact_mod_cast hlt)]
    exact ⟨-1,_,_,rfl,hout,Or.inr ⟨rfl,rfl,hno⟩⟩

theorem recvrespFd_spec (little : Bool) (hbuf : buf.length = maxlen) (hp : bport < 2 ^ 16) (ho : outsa.addrU.length = 256)
    (hdn : b.type ≠ atDn) (hin : fd.input = reply rsv b bport ++ tail) (hf : fd.sys.length + maxlen < fuel) :
    ∃ r fd' o, recvrespFd little fd buf b.type (some outsa) fuel = some (r,fd',o) ∧ fd'.output = fd.output ∧
      (r = 0 ∧ fd'.input = tail ∧ (∃ s, o = some s ∧ Stores s b bport) ∨ r = -1 ∧ o = some outsa ∧ ¬Calm fd) := by
  have hmax : maxlen = 264 := rfl
  have hfield : b.field = b.bytes := if_neg hdn
  obtain ⟨r,fd₁,b₁,hrun,hout,hsuf,hr⟩ := read_whole buf 4 [5,0,rsv,b.type]
    (show fd.input = _ ++ (b.field ++ portField bport ++ tail) from hin) rfl (by omega) (show _ < fuel by omega)
  have hle := hsuf.length_le
  rw [recvrespFd,hrun]
  simp only [Option.bind_eq_bind, Option.bind_some]
  rcases hr with ⟨rfl,hin₁,rfl⟩ | ⟨hlt,hno⟩
  · rw [hfield] at hin₁
    have hb₁ : ([5,0,rsv,b.type] ++ buf.drop 4).length = maxlen := by
      rw [List.length_append,List.length_drop,hbuf]
      rfl
    obtain ⟨r,fd₂,o,hrun₂,hout₂,hr⟩ := recvAddr_spec little hb₁ hp ho hin₁ (show _ < fuel by omega)
    have hdone := hr.imp_right (And.imp_right (And.imp_right fun hno (hc : Calm fd) => hno (hc.suffix hsuf)))
    rw [if_neg (by decide),unpackHead_reply]
    simp only [Option.bind_some]
    rw [respOk_spec b (Or.inl rfl),if_neg (not_not.2 rfl)]
    rcases b.valid with ⟨hty,hlen⟩ | ⟨hty,-⟩ | ⟨hty,hlen⟩
    · rw [hlen] at hrun₂
      rw [if_pos hty,hrun₂]
      exact ⟨r,fd₂,o,rfl,hout₂.trans hout,hdone⟩
    · exact absurd hty hdn
    · rw [hlen] at hrun₂
      rw [if_neg (by rw [hty]; decide),if_neg hdn,hrun₂]
      exact ⟨r,fd₂,o,rfl,hout₂.trans hout,hdone⟩
  · rw [if_pos (by exact_mod_cast hlt)]
    exact ⟨_,_,_,rfl,hout,Or.inr ⟨rfl,rfl,hno⟩⟩

/-- A connection on which the first calls are short or interrupted. -/
def sampleFd : Fd := ⟨[.moves 1,.fails .eintr,.moves 2],5 :: 0 :: (reply 0 localhost 80 ++ []),[],.other 0⟩

end Catlib.Io
