import Catlib.Pack.RoundTrip

/-! # packlen against pack

`packlen` takes what the items need off a global maximum, `pack` off the room of the buffer.
Both see the same items, so `pack` stops no later than `packlen`, and what `packlen` took is
what `pack` wrote.
-/
namespace Catlib.Pack

/-! ## packlen -/

structure PacklenSt where
  fmt : List Char
  max : ℕ
  raws : List (List (List ℕ))

/-- The loop over the blocks of an `r` item: what they leave of the maximum, or an error. -/
def takeRaws (max : ℕ) : ℕ → List (List ℕ) → Option (Option ℕ)
  | 0, _ => some (some max)
  | _ + 1, [] => none
  | n + 1, r :: rs => if r.length > max then some none else takeRaws (max - r.length) n rs

/-- The body of the loop of `packlen`. -/
def packlenBody (x : PacklenSt) : Option (Turn PacklenSt ℕ) :=
  match x.fmt with
  | [] => some (.leave (psizMax - x.max))
  | _ :: _ =>
    match parseCount 1 x.fmt with
    | none => some (.leave 0)
    | some (_,[]) => some (.leave 0)
    | some (nreps,c :: s) =>
      if isOrder c then some (.again { x with fmt := s })
      else
        match letter c with
        | some (w,_) =>
          if nreps > overflow w ∨ nreps * psiz w > x.max then some (.leave 0)
          else some (.again { x with fmt := s, max := x.max - psiz w * nreps })
        | none =>
          if c = 'r' then do
            let rs ← x.raws.head?
            match ← takeRaws x.max nreps rs with
            | some max => return .again ⟨s,max,x.raws.tail⟩
            | none => return .leave 0
          else some (.leave 0)

def packlen (fuel : ℕ) (fmt : List Char) (raws : List (List (List ℕ))) : Option ℕ :=
  loop packlenBody fuel ⟨fmt,psizMax,raws⟩

/-! ## The arguments of a format -/

/-- The raw arguments, which are all that `packlen` is called with. -/
def rawArgs (args : List PackArg) : List (List (List ℕ)) :=
  args.filterMap fun
    | .raws rs => some rs
    | _ => none

/-- Every item of the format has its argument. An array has as many elements as its count says, as
far as there can be room for them; so have the blocks of an `r` item, unless those that are
there are already too long. -/
inductive ArgsFor : List Char → List PackArg → Prop
  | nil (args : List PackArg) : ArgsFor [] args
  | bad {c : Char} {s : List Char} (args : List PackArg)
      (hbad : ∀ count l s', parseCount 0 (c :: s) = some (count,l :: s') → letter l = none ∧ l ≠ 'r') : ArgsFor (c :: s) args
  | item {c l : Char} {s s' : List Char} {count : ℕ} {w : Width} {sgn : Bool} {a : PackArg} {args : List PackArg}
      (hc : parseCount 0 (c :: s) = some (count,l :: s')) (hl : letter l = some (w,sgn)) (hkind : ∀ rs, a ≠ .raws rs)
      (ha : psiz w * max 1 count ≤ psizMax → ∃ vs, argVals count a = some vs) (h : ArgsFor s' args) : ArgsFor (c :: s) (a :: args)
  | raw {c : Char} {s s' : List Char} {count : ℕ} {rs : List (List ℕ)} {args : List PackArg}
      (hc : parseCount 0 (c :: s) = some (count,'r' :: s'))
      (hlen : max 1 count ≤ rs.length ∨ psizMax < (rs.map List.length).sum) (h : ArgsFor s' args) : ArgsFor (c :: s) (.raws rs :: args)

/-- The bytes of the blocks of an `r` item. -/
def rawSize (n : ℕ) (rs : List (List ℕ)) : ℕ := ((rs.take n).map List.length).sum

theorem rawSize_succ (n : ℕ) (r : List ℕ) (rs : List (List ℕ)) : rawSize (n + 1) (r :: rs) = r.length + rawSize n rs := rfl

theorem takeRaws_eq {n m : ℕ} {rs : List (List ℕ)} (h : n ≤ rs.length ∨ m < (rs.map List.length).sum) :
    takeRaws m n rs = some (if rawSize n rs ≤ m then some (m - rawSize n rs) else none) := by
  induction n generalizing m rs with
  | zero => simp [takeRaws, rawSize]
  | succ n ih =>
    cases rs with
    | nil => simp at h
    | cons r rs =>
      rw [List.length_cons,List.map_cons,List.sum_cons] at h
      rw [takeRaws,rawSize_succ]
      by_cases hr : r.length > m
      · rw [if_pos hr,if_neg (by omega)]
      · rw [if_neg hr,ih (by omega)]
        by_cases hs : rawSize n rs ≤ m - r.length
        · rw [if_pos hs,if_pos (by omega),Nat.sub_sub]
        · rw [if_neg hs,if_neg (by omega)]

theorem packRaws_eq {n left : ℕ} {rs : List (List ℕ)} (h : n ≤ rs.length ∨ left < (rs.map List.length).sum) (hl : left ≤ psizMax) :
    ∃ bytes, packRaws left n rs = some (bytes,decide (rawSize n rs ≤ left)) ∧ bytes.length ≤ left ∧
      (rawSize n rs ≤ left → bytes.length = rawSize n rs) := by
  induction n generalizing left rs with
  | zero => exact ⟨[],by simp [packRaws, rawSize],Nat.zero_le _,fun _ => rfl⟩
  | succ n ih =>
    cases rs with
    | nil => simp at h
    | cons r rs =>
      rw [List.length_cons,List.map_cons,List.sum_cons] at h
      rw [packRaws,rawSize_succ]
      by_cases hr : r.length > psizMax ∨ r.length > left
      · refine ⟨[],?_,Nat.zero_le _,fun hs => absurd hs (by omega)⟩
        rw [if_pos hr,decide_eq_false (by omega)]
      · obtain ⟨bytes,hb,hle,hall⟩ := @ih (left - r.length) rs (by omega) (by omega)
        refine ⟨r ++ bytes,?_,?_,fun hs => ?_⟩
        · rw [if_neg hr,hb,Option.map_some]
          congr 2
          exact decide_eq_decide.2 (by omega)
        · rw [List.length_append]
          omega
        · rw [List.length_append,hall (by omega)]

/-! ## Both loops -/

variable {fmt : List Char} {args : List PackArg}

theorem rawArgs_item {a : PackArg} (h : ∀ rs, a ≠ .raws rs) : rawArgs (a :: args) = rawArgs args := by
  cases a with
  | raws rs => exact absurd rfl (h rs)
  | _ => rfl

/-- From a state where both have used the same bytes: `packlen` comes back with a total, and
`pack` with the same one if the buffer has room for it. -/
def Agree (fmt : List Char) (args : List PackArg) : Prop :=
  ∀ m used, m + used = psizMax → ∃ n, (n = 0 ∨ used ≤ n) ∧ n ≤ psizMax ∧
    (∃ k, loop packlenBody k ⟨fmt,m,rawArgs args⟩ = some n) ∧
    ∀ blen left bigendian, blen ≤ psizMax → left + used = blen → ∀ out, out.length = used →
      ∃ k out', loop (packBody blen) k ⟨fmt,bigendian,left,args,out⟩ = some (if n ≤ blen then n else 0,out') ∧ out'.length ≤ blen

theorem Agree.reject (hlen : ∀ m, m ≤ psizMax → packlenBody ⟨fmt,m,rawArgs args⟩ = some (.leave 0))
    (hpack : ∀ blen left bigendian out, left ≤ psizMax → ∃ bytes, bytes.length ≤ left ∧
      packBody blen ⟨fmt,bigendian,left,args,out⟩ = some (.leave (0,out ++ bytes))) : Agree fmt args := by
  intro m used hm
  refine ⟨0,Or.inl rfl,Nat.zero_le _,⟨1,loop_leave (hlen m (by omega))⟩,fun blen left bigendian hb hl out ho => ?_⟩
  obtain ⟨bytes,hbytes,hbody⟩ := hpack blen left bigendian out (by omega)
  refine ⟨1,out ++ bytes,?_,?_⟩
  · rw [loop_leave hbody,ite_self]
  · rw [List.length_append]
    omega

theorem Agree.step {s : List Char} {a : PackArg} (h : Agree s args) (size : ℕ)
    (hlen : ∀ m, m ≤ psizMax → packlenBody ⟨fmt,m,rawArgs (a :: args)⟩ =
      if size ≤ m then some (.again ⟨s,m - size,rawArgs args⟩) else some (.leave 0))
    (hpack : ∀ blen left bigendian out, left ≤ psizMax → ∃ bytes, bytes.length ≤ left ∧ (size ≤ left → bytes.length = size) ∧
      packBody blen ⟨fmt,bigendian,left,a :: args,out⟩ =
        if size ≤ left then some (.again ⟨s,bigendian,left - size,args,out ++ bytes⟩) else some (.leave (0,out ++ bytes))) :
    Agree fmt (a :: args) := by
  intro m used hm
  by_cases hroom : size ≤ m
  · obtain ⟨n,hn,hmax,⟨k,hk⟩,hrun⟩ := h (m - size) (used + size) (by lia)
    refine ⟨n,by lia,hmax,⟨k + 1,?_⟩,fun blen left bigendian hb hl out ho => ?_⟩
    · rw [loop_again (by rw [hlen m (by lia),if_pos hroom])]
      exact hk
    · obtain ⟨bytes,hle,hall,hbody⟩ := hpack blen left bigendian out (by lia)
      by_cases hfit : size ≤ left
      · rw [if_pos hfit] at hbody
        obtain ⟨k',out',hk',ho'⟩ := hrun blen (left - size) bigendian hb (by lia) (out ++ bytes)
          (by rw [List.length_append,ho,hall hfit])
        exact ⟨k' + 1,out',(loop_again hbody).trans hk',ho'⟩
      · -- what is still to come is past the end of the buffer
        rw [if_neg hfit] at hbody
        refine ⟨1,out ++ bytes,?_,?_⟩
        · rw [loop_leave hbody]
          congr 2
          split <;> lia
        · rw [List.length_append]
          lia
  · refine ⟨0,Or.inl rfl,Nat.zero_le _,⟨1,loop_leave (by rw [hlen m (by lia),if_neg hroom])⟩,fun blen left bigendian hb hl out ho => ?_⟩
    obtain ⟨bytes,hle,hall,hbody⟩ := hpack blen left bigendian out (by lia)
    rw [if_neg (by lia)] at hbody
    refine ⟨1,out ++ bytes,?_,?_⟩
    · rw [loop_leave hbody,ite_self]
    · rw [List.length_append]
      lia

theorem overflow_le (w : Width) {n : ℕ} (h : psiz w * n ≤ psizMax) : n ≤ overflow w := by
  have hdiv : n ≤ psizMax / psiz w := (Nat.le_div_iff_mul_le (psiz_pos w)).2 (by rwa [Nat.mul_comm])
  rw [overflow]
  split
  · exact hdiv.trans (Nat.le_succ _)
  · exact hdiv

theorem agree_item {c l : Char} {s s' : List Char} {count : ℕ} {w : Width} {sgn : Bool} {a : PackArg} (ho : isOrder c = false)
    (hol : isOrder l = false) (hc : parseCount 0 (c :: s) = some (count,l :: s')) (hl : letter l = some (w,sgn))
    (hkind : ∀ rs, a ≠ .raws rs) (ha : psiz w * max 1 count ≤ psizMax → ∃ vs, argVals count a = some vs) (h : Agree s' args) :
    Agree (c :: s) (a :: args) := by
  refine h.step (psiz w * max 1 count) (fun m hm => ?_) fun blen left bigendian out hleft => ?_
  · have hover := overflow_le w (n := max 1 count)
    rw [packlenBody]
    simp only [parseCount_one, hc, Option.map_some, hol, Bool.false_eq_true, if_false, hl, rawArgs_item hkind]
    rw [Nat.mul_comm (max 1 count)]
    by_cases hroom : psiz w * max 1 count ≤ m
    · rw [if_neg (by have := hover (by omega); omega),if_pos hroom]
    · rw [if_pos (Or.inr (by omega)),if_neg hroom]
  · rw [packBody]
    simp only [ho, Bool.false_eq_true, if_false, hc, hl]
    by_cases hroom : psiz w * max 1 count ≤ left
    · obtain ⟨vs,hvs⟩ := ha (by omega)
      have hover := overflow_le w (n := max 1 count) (by omega)
      have hbytes : (vs.flatMap (packVal w bigendian)).length = psiz w * max 1 count := by
        rw [List.length_flatMap]
        simp [packVal_length, Nat.mul_comm, argVals_length hvs]
      refine ⟨vs.flatMap (packVal w bigendian),by omega,fun _ => hbytes,?_⟩
      rw [if_neg (by omega),if_pos hroom]
      simp only [List.head?_cons, Option.bind_eq_bind, Option.bind_some, hvs, PackSt.write, hbytes, List.tail_cons]
      rfl
    · refine ⟨[],Nat.zero_le _,fun hs => absurd hs hroom,?_⟩
      rw [if_pos (Or.inr (by omega)),if_neg hroom,List.append_nil]

theorem agree_raw {c : Char} {s s' : List Char} {count : ℕ} {rs : List (List ℕ)} (ho : isOrder c = false)
    (hc : parseCount 0 (c :: s) = some (count,'r' :: s'))
    (hlen : max 1 count ≤ rs.length ∨ psizMax < (rs.map List.length).sum) (h : Agree s' args) : Agree (c :: s) (.raws rs :: args) := by
  have hl : letter 'r' = none := rfl
  have hol : isOrder 'r' = false := rfl
  refine h.step (rawSize (max 1 count) rs) (fun m hm => ?_) fun blen left bigendian out hleft => ?_
  · have htake := takeRaws_eq (m := m) (hlen.imp_right fun hs => by omega)
    rw [packlenBody]
    simp only [parseCount_one, hc, Option.map_some, hol, Bool.false_eq_true, if_false, hl, if_true]
    show (takeRaws m (max 1 count) rs).bind _ = _
    rw [htake,Option.bind_some]
    by_cases hroom : rawSize (max 1 count) rs ≤ m
    · rw [if_pos hroom,if_pos hroom]
      rfl
    · rw [if_neg hroom,if_neg hroom]
      rfl
  · obtain ⟨bytes,hb,hle,hall⟩ := packRaws_eq (hlen.imp_right fun hs => by omega) hleft
    refine ⟨bytes,hle,hall,?_⟩
    rw [packBody]
    simp only [ho, Bool.false_eq_true, if_false, hc, hl, if_true, List.head?_cons, hb]
    by_cases hroom : rawSize (max 1 count) rs ≤ left
    · simp [hroom, PackSt.write, hall hroom]
    · simp [hroom]

theorem ArgsFor.agree (h : ArgsFor fmt args) (hfmt : ∀ c ∈ fmt, isOrder c = false) : Agree fmt args := by
  induction h with
  | nil args =>
    intro m used hm
    refine ⟨used,Or.inr le_rfl,by omega,⟨1,?_⟩,fun blen left bigendian hb hl out ho => ⟨1,out,?_,by omega⟩⟩
    · rw [loop_leave (r := psizMax - m) rfl]
      congr 1
      omega
    · rw [loop_leave (r := (blen - left,out)) rfl,if_pos (by omega)]
      congr 2
      omega
  | @bad c s args hbad =>
    have ho : isOrder c = false := hfmt c List.mem_cons_self
    have hnone : ∀ count l s', parseCount 0 (c :: s) = some (count,l :: s') → isOrder l = false := by
      intro count l s' hp
      exact hfmt l ((parseCount_suffix hp).subset List.mem_cons_self)
    refine Agree.reject (fun m hm => ?_) fun blen left bigendian out hleft => ⟨[],Nat.zero_le _,?_⟩
    · rw [packlenBody]
      simp only [parseCount_one]
      rcases hp : parseCount 0 (c :: s) with _ | ⟨count,_ | ⟨l,s'⟩⟩
      · rfl
      · rfl
      · obtain ⟨hl,hr⟩ := hbad count l s' hp
        simp only [Option.map_some, hnone count l s' hp, Bool.false_eq_true, if_false, hl, hr]
    · rw [packBody,List.append_nil]
      simp only [ho, Bool.false_eq_true, if_false]
      rcases hp : parseCount 0 (c :: s) with _ | ⟨count,_ | ⟨l,s'⟩⟩
      · rfl
      · rfl
      · obtain ⟨hl,hr⟩ := hbad count l s' hp
        simp only [hl, hr, if_false]
  | item hc hl hkind ha h ih =>
    have hsuf := parseCount_suffix hc
    refine agree_item (hfmt _ List.mem_cons_self) (hfmt _ (hsuf.subset List.mem_cons_self)) hc hl hkind ha (ih fun x hx => ?_)
    exact hfmt x (hsuf.subset (List.mem_cons_of_mem _ hx))
  | raw hc hlen h ih =>
    refine agree_raw (hfmt _ List.mem_cons_self) hc hlen (ih fun x hx => ?_)
    exact hfmt x ((parseCount_suffix hc).subset (List.mem_cons_of_mem _ hx))

/-- `packlen` comes back with a total, and `pack` writes that many bytes into a buffer that has
room for them and fails on every other one. A format that `packlen` rejects has the total 0. -/
theorem packlen_pack {fmt : List Char} {args : List PackArg} (hfmt : ∀ c ∈ fmt, isOrder c = false) (ha : ArgsFor fmt args) :
    ∃ n, (∃ k, packlen k fmt (rawArgs args) = some n) ∧ ∀ blen, ∃ k out,
      pack k blen fmt args = some (if n ≤ blen then n else 0,out) ∧ out.length ≤ blen := by
  obtain ⟨n,-,hmax,hlen,hrun⟩ := ha.agree hfmt psizMax 0 rfl
  refine ⟨n,hlen,fun blen => ?_⟩
  by_cases hb : blen = 0
  · refine ⟨0,[],?_,Nat.zero_le _⟩
    rw [pack,if_pos hb]
    split <;> congr 2
    omega
  · obtain ⟨k,out,hk,ho⟩ := hrun (min blen psizMax) (min blen psizMax) true (min_le_right _ _) rfl [] rfl
    refine ⟨k,out,?_,ho.trans (min_le_left _ _)⟩
    rw [pack,if_neg hb,hk]
    congr 3
    exact propext (by omega)

theorem packlen_pack_blocks : ∃ n, (∃ k, packlen k "2rh".toList [[[1,2,3],[4]]] = some n) ∧ ∀ blen, ∃ k out,
    pack k blen "2rh".toList [.raws [[1,2,3],[4]],.num 258] = some (if n ≤ blen then n else 0,out) ∧ out.length ≤ blen := by
  refine @packlen_pack _ [.raws [[1,2,3],[4]],.num 258] ?_ ?_
  · have hf : "2rh".toList = ['2','r','h'] := rfl
    rw [hf,List.forall_mem_cons,List.forall_mem_cons,List.forall_mem_singleton]
    exact ⟨rfl,rfl,rfl⟩
  · have hraw : parseCount 0 ['2','r','h'] = some (2,'r' :: ['h']) := rfl
    have hitem : parseCount 0 ['h'] = some (0,'h' :: []) := rfl
    exact ArgsFor.raw hraw (Or.inl le_rfl) (ArgsFor.item hitem rfl (fun rs h => by cases h) (fun _ => ⟨_,rfl⟩) (ArgsFor.nil []))

end Catlib.Pack
