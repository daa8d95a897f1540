import Catlib.Crypto.Words
import Mathlib.Algebra.BigOperators.Group.List.Basic

/-! # RC4

The state array is a permutation of the bytes: the key schedule and every generated byte
exchange two of its entries. Encryption runs the loop of the generator beside the message.
-/
namespace Catlib.Crypto

@[ext] structure Arc4ctx where
  i : Byte
  j : Byte
  s : Byte → Byte

/-- Exchange two entries through a temporary byte. -/
def exchange (s : Byte → Byte) (i j : Byte) : Byte → Byte := Function.update (Function.update s i (s j)) j (s i)

/-- The second loop of `arc4_init`, over the indices that are left. A key without bytes has
no remainder to take. -/
def arc4Schedule (key : List Byte) : List ℕ → Byte × (Byte → Byte) → Option (Byte → Byte)
  | [], (_,s) => some s
  | i :: l, (j,s) =>
    match key[i % key.length]? with
    | none => none
    | some k =>
      let j' := j + s (BitVec.ofNat 8 i) + k
      arc4Schedule key l (j',exchange s (BitVec.ofNat 8 i) j')

def arc4Init (key : List Byte) : Option Arc4ctx := (arc4Schedule key (List.range 256) (0,id)).map fun s => ⟨0,0,s⟩

/-- The body of the two loops up to the output: the byte and the next state. -/
def arc4Turn (a : Arc4ctx) : Byte × Arc4ctx :=
  let i := a.i + 1
  let j := a.j + a.s i
  let b1 := a.s i
  let b2 := a.s j
  let s := Function.update (Function.update a.s i b2) j b1
  (s (b1 + b2),⟨i,j,s⟩)

def arc4Gen (a : Arc4ctx) : ℕ → List Byte × Arc4ctx
  | 0 => ([],a)
  | len + 1 =>
    let t := arc4Turn a
    let r := arc4Gen t.2 len
    (t.1 :: r.1,r.2)

def arc4Encrypt (a : Arc4ctx) : List Byte → List Byte × Arc4ctx
  | [] => ([],a)
  | b :: l =>
    let t := arc4Turn a
    let r := arc4Encrypt t.2 l
    ((b ^^^ t.1) :: r.1,r.2)

variable {a a' : Arc4ctx} {key : List Byte}

/-! ## The state array -/

theorem exchange_eq (s : Byte → Byte) (i j : Byte) : exchange s i j = s ∘ Equiv.swap i j := by
  funext x
  rw [exchange,Function.comp_apply]
  by_cases hj : x = j
  · rw [hj,Function.update_self,Equiv.swap_apply_right]
  · rw [Function.update_of_ne hj]
    by_cases hi : x = i
    · rw [hi,Function.update_self,Equiv.swap_apply_left]
    · rw [Function.update_of_ne hi,Equiv.swap_apply_of_ne_of_ne hi hj]

theorem exchange_bijective {s : Byte → Byte} (h : s.Bijective) (i j : Byte) : (exchange s i j).Bijective := by
  rw [exchange_eq]
  exact h.comp (Equiv.swap i j).bijective

theorem arc4Schedule_spec (hk : key ≠ []) (l : List ℕ) {j : Byte} {s : Byte → Byte} (hs : s.Bijective) :
    ∃ s', arc4Schedule key l (j,s) = some s' ∧ s'.Bijective := by
  induction l generalizing j s with
  | nil => exact ⟨s,rfl,hs⟩
  | cons i l ih =>
    have hlt : i % key.length < key.length := Nat.mod_lt _ (List.length_pos_iff.2 hk)
    rw [arc4Schedule,List.getElem?_eq_getElem hlt]
    exact ih (exchange_bijective hs _ _)

theorem arc4Init_spec (hk : key ≠ []) : ∃ a, arc4Init key = some a ∧ a.s.Bijective := by
  obtain ⟨s,hs,hb⟩ := arc4Schedule_spec hk (List.range 256) (j := 0) Function.bijective_id
  exact ⟨⟨0,0,s⟩,by rw [arc4Init,hs]; rfl,hb⟩

theorem arc4Turn_bijective (h : a.s.Bijective) : (arc4Turn a).2.s.Bijective := exchange_bijective h _ _

theorem arc4Gen_bijective (n : ℕ) (h : a.s.Bijective) : (arc4Gen a n).2.s.Bijective := by
  induction n generalizing a with
  | zero => exact h
  | succ n ih => exact ih (arc4Turn_bijective h)

/-! ## The two loops -/

theorem arc4Encrypt_eq (a : Arc4ctx) (msg : List Byte) :
    arc4Encrypt a msg = (List.zipWith (· ^^^ ·) msg (arc4Gen a msg.length).1,(arc4Gen a msg.length).2) := by
  induction msg generalizing a with
  | nil => rfl
  | cons b l ih => rw [arc4Encrypt,ih]; rfl

theorem arc4Encrypt_twice (a : Arc4ctx) (msg : List Byte) : (arc4Encrypt a (arc4Encrypt a msg).1).1 = msg := by
  induction msg generalizing a with
  | nil => rfl
  | cons b l ih =>
    simp only [arc4Encrypt]
    rw [ih,BitVec.xor_assoc,BitVec.xor_self,BitVec.xor_zero]

theorem arc4Gen_add (a : Arc4ctx) (m n : ℕ) :
    arc4Gen a (m + n) = ((arc4Gen a m).1 ++ (arc4Gen (arc4Gen a m).2 n).1,(arc4Gen (arc4Gen a m).2 n).2) := by
  induction m generalizing a with
  | zero => rw [Nat.zero_add]; rfl
  | succ m ih =>
    rw [Nat.succ_add,arc4Gen,ih]
    rfl

theorem arc4Encrypt_append (a : Arc4ctx) (l m : List Byte) :
    arc4Encrypt a (l ++ m) =
      ((arc4Encrypt a l).1 ++ (arc4Encrypt (arc4Encrypt a l).2 m).1,(arc4Encrypt (arc4Encrypt a l).2 m).2) := by
  induction l generalizing a with
  | nil => rfl
  | cons b l ih =>
    rw [List.cons_append,arc4Encrypt,ih]
    rfl

/-! ## Runs of calls -/

inductive Arc4Call
  | gen (len : ℕ)
  | encrypt (msg : List Byte)

/-- One call: the bytes that it puts out and the state after it. -/
def arc4Call (a : Arc4ctx) : Arc4Call → List Byte × Arc4ctx
  | .gen len => arc4Gen a len
  | .encrypt msg => arc4Encrypt a msg

/-- Consecutive calls: their bytes one after the other, and the last state. -/
def arc4Calls (a : Arc4ctx) : List Arc4Call → List Byte × Arc4ctx
  | [] => ([],a)
  | c :: cs =>
    let t := arc4Call a c
    let r := arc4Calls t.2 cs
    (t.1 ++ r.1,r.2)

theorem arc4Call_bijective (c : Arc4Call) (h : a.s.Bijective) : (arc4Call a c).2.s.Bijective := by
  cases c with
  | gen len => exact arc4Gen_bijective len h
  | encrypt msg =>
    rw [arc4Call,arc4Encrypt_eq]
    exact arc4Gen_bijective _ h

theorem arc4Calls_bijective (cs : List Arc4Call) (h : a.s.Bijective) : (arc4Calls a cs).2.s.Bijective := by
  induction cs generalizing a with
  | nil => exact h
  | cons c cs ih => exact ih (arc4Call_bijective c h)

theorem arc4Calls_gen (a : Arc4ctx) (ns : List ℕ) : arc4Calls a (ns.map .gen) = arc4Gen a ns.sum := by
  induction ns generalizing a with
  | nil => rfl
  | cons n ns ih =>
    rw [List.map_cons,List.sum_cons,arc4Gen_add,arc4Calls,ih]
    rfl

theorem arc4Calls_encrypt (a : Arc4ctx) (ms : List (List Byte)) :
    arc4Calls a (ms.map .encrypt) = arc4Encrypt a ms.flatten := by
  induction ms generalizing a with
  | nil => rfl
  | cons m ms ih =>
    rw [List.map_cons,List.flatten_cons,arc4Encrypt_append,arc4Calls,ih]
    rfl

/-- A keyed context stays a permutation through any calls, encryption adds the bytes that the
generator would give, it is its own inverse with a freshly keyed context, and neither function
depends on how its work is split into calls. -/
theorem arc4_spec (hk : key ≠ []) : ∃ a, arc4Init key = some a ∧
    (∀ cs, (arc4Calls a cs).2.s.Bijective) ∧
    (∀ cs msg, arc4Encrypt (arc4Calls a cs).2 msg =
      (List.zipWith (· ^^^ ·) msg (arc4Gen (arc4Calls a cs).2 msg.length).1,(arc4Gen (arc4Calls a cs).2 msg.length).2)) ∧
    (∀ msg, (arc4Encrypt a (arc4Encrypt a msg).1).1 = msg) ∧
    (∀ cs (ns : List ℕ), arc4Calls (arc4Calls a cs).2 (ns.map .gen) = arc4Gen (arc4Calls a cs).2 ns.sum) ∧
    ∀ cs (ms : List (List Byte)), arc4Calls (arc4Calls a cs).2 (ms.map .encrypt) = arc4Encrypt (arc4Calls a cs).2 ms.flatten := by
  obtain ⟨a,ha,hb⟩ := arc4Init_spec hk
  exact ⟨a,ha,fun cs => arc4Calls_bijective cs hb,fun cs msg => arc4Encrypt_eq _ msg,arc4Encrypt_twice a,
    fun cs ns => arc4Calls_gen _ ns,fun cs ms => arc4Calls_encrypt _ ms⟩

theorem arc4_spec_key : ∃ a, arc4Init [1,2,3] = some a ∧
    (∀ cs, (arc4Calls a cs).2.s.Bijective) ∧
    (∀ cs msg, arc4Encrypt (arc4Calls a cs).2 msg =
      (List.zipWith (· ^^^ ·) msg (arc4Gen (arc4Calls a cs).2 msg.length).1,(arc4Gen (arc4Calls a cs).2 msg.length).2)) ∧
    (∀ msg, (arc4Encrypt a (arc4Encrypt a msg).1).1 = msg) ∧
    (∀ cs (ns : List ℕ), arc4Calls (arc4Calls a cs).2 (ns.map .gen) = arc4Gen (arc4Calls a cs).2 ns.sum) ∧
    ∀ cs (ms : List (List Byte)), arc4Calls (arc4Calls a cs).2 (ms.map .encrypt) = arc4Encrypt (arc4Calls a cs).2 ms.flatten :=
  arc4_spec (by decide)

end Catlib.Crypto
