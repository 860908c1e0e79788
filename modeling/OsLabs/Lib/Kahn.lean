import Mathlib.Data.List.ReduceOption
import Mathlib.Tactic

/-!
# Programs on streams

A program reads one stream, item by item, and writes another one.  It waits for the next item and
cannot ask whether it is there, so what it has written depends on the stream alone: of two runs on
one stream, one has written what the other has and maybe more.
-/

namespace OsLabs.Lib

/-- What a program does next; behind the end of its input it reads `none`. -/
inductive Act (β σ : Type*)
  | read (next : Option β → σ)
  | write (b : β) (next : σ)
  | exit

def Act.isExit {β σ : Type*} : Act β σ → Bool
  | read _ | write _ _ => false
  | exit => true

variable {β σ : Type*}

/-- `Ran act s₀ g o s`: from `s₀`, the program has read `g` and written `o`, and is in `s`. -/
inductive Ran (act : σ → Act β σ) (s₀ : σ) : List (Option β) → List β → σ → Prop
  | start : Ran act s₀ [] [] s₀
  | read {g : List (Option β)} {o : List β} {s : σ} {next : Option β → σ} (x : Option β)
      (h : Ran act s₀ g o s) (hact : act s = .read next) : Ran act s₀ (g ++ [x]) o (next x)
  | write {g : List (Option β)} {o : List β} {s s' : σ} {b : β} (h : Ran act s₀ g o s)
      (hact : act s = .write b s') : Ran act s₀ g (o ++ [b]) s'

/-! ### Streams -/

/-- What has come of a stream, and whether nothing more will come. -/
structure Feed (β : Type*) where
  items : List β
  closed : Bool

namespace Feed

/-- What `g` has read is there. -/
structure Gives (x : Feed β) (g : List (Option β)) : Prop where
  items : ∀ k < g.length, g[k]? = some x.items[k]?
  enough : x.closed = false → g.length ≤ x.items.length

/-- Both may be the same stream, at two moments. -/
structure Agrees (x y : Feed β) : Prop where
  items : x.items <+: y.items ∨ y.items <+: x.items
  closed : x.closed = true → y.items <+: x.items
  closed' : y.closed = true → x.items <+: y.items

theorem Agrees.refl (x : Feed β) : x.Agrees x :=
  ⟨Or.inl List.prefix_rfl, fun _ => List.prefix_rfl, fun _ => List.prefix_rfl⟩

theorem Agrees.symm {x y : Feed β} (h : x.Agrees y) : y.Agrees x :=
  ⟨h.items.symm, h.closed', h.closed⟩

/-- Less may be known about the ends. -/
theorem Agrees.weaken {x y x' y' : Feed β} (h : x.Agrees y) (hx : x'.items = x.items)
    (hy : y'.items = y.items) (hxc : x'.closed = true → x.closed = true)
    (hyc : y'.closed = true → y.closed = true) : x'.Agrees y' where
  items := by
    rw [hx, hy]
    exact h.items
  closed hc := by
    rw [hx, hy]
    exact h.closed (hxc hc)
  closed' hc := by
    rw [hx, hy]
    exact h.closed' (hyc hc)

theorem Agrees.eq_of_closed {x y : Feed β} (h : x.Agrees y) (hx : x.closed = true)
    (hy : y.closed = true) : x.items = y.items :=
  (h.closed' hy).eq_of_length_le (h.closed hx).length_le

theorem Gives.nil (x : Feed β) : x.Gives [] :=
  ⟨fun _ hk => absurd hk (Nat.not_lt_zero _), fun _ => Nat.zero_le _⟩

/-- One item more, or the end. -/
theorem Gives.next {x : Feed β} {g : List (Option β)} (h : x.Gives g)
    (henough : x.closed = false → g.length < x.items.length) :
    x.Gives (g ++ [x.items[g.length]?]) where
  items k hk := by
    rw [List.length_append, List.length_singleton] at hk
    rcases Nat.lt_succ_iff_lt_or_eq.mp hk with hk | rfl
    · rw [List.getElem?_append_left hk]
      exact h.items k hk
    · rw [List.getElem?_concat_length]
  enough hopen := by
    rw [List.length_append, List.length_singleton]
    exact henough hopen

/-- More may have come in the meantime, or the end. -/
structure Grows (x y : Feed β) : Prop where
  items : x.items <+: y.items
  closed : x.closed = true → y = x

theorem Grows.refl (x : Feed β) : x.Grows x := ⟨List.prefix_rfl, fun _ => rfl⟩

theorem Gives.mono {x y : Feed β} {g : List (Option β)} (h : x.Gives g) (hgrows : x.Grows y) :
    y.Gives g := by
  cases hx : x.closed with
  | true =>
    rw [hgrows.closed hx]
    exact h
  | false =>
    have henough := h.enough hx
    refine ⟨fun k hk => ?_, fun _ => henough.trans hgrows.items.length_le⟩
    rw [h.items k hk, List.prefix_iff_getElem?.mp hgrows.items k (lt_of_lt_of_le hk henough),
      List.getElem?_eq_getElem]

/-- What has been read, but for the ends, is what has come first. -/
theorem Gives.reduceOption {x : Feed β} {g : List (Option β)} (h : x.Gives g) :
    g.reduceOption = x.items.take g.length := by
  induction g using List.reverseRecOn with
  | nil => rfl
  | append_singleton g a ih =>
    have hg : x.Gives g := by
      refine ⟨fun k hk => ?_, fun hopen => ?_⟩
      · have hitem := h.items k (by rw [List.length_append]; exact Nat.lt_add_right _ hk)
        rwa [List.getElem?_append_left hk] at hitem
      · have henough := h.enough hopen
        rw [List.length_append] at henough
        exact Nat.le_of_add_right_le henough
    have hlast := h.items g.length (by rw [List.length_append]; exact Nat.lt_succ_self _)
    rw [List.getElem?_concat_length] at hlast
    obtain rfl := Option.some.inj hlast
    rw [List.reduceOption_append, ih hg, List.length_append,
      List.length_singleton, List.take_add_one]
    cases x.items[g.length]? with
    | none => rfl
    | some b => rfl

/-- The item behind those that have been read is the first of the rest. -/
theorem Gives.getElem?_length {x : Feed β} {g : List (Option β)} (h : x.Gives g) {rest : List β}
    (hitems : x.items = g.reduceOption ++ rest) :
    x.items[g.length]? = rest.head? ∧ (rest ≠ [] → g.length < x.items.length) := by
  have hread := h.reduceOption
  have hlength := congrArg List.length hitems
  rw [hread, List.length_append, List.length_take] at hlength
  cases rest with
  | nil =>
    rw [List.length_nil] at hlength
    exact ⟨List.getElem?_eq_none (by omega), fun hne => absurd rfl hne⟩
  | cons b rest =>
    rw [List.length_cons] at hlength
    have hlt : g.length < x.items.length := by omega
    have hlen : g.reduceOption.length = g.length := by
      rw [hread, List.length_take]
      omega
    refine ⟨?_, fun _ => hlt⟩
    rw [hitems, List.getElem?_append_right hlen.le, hlen, Nat.sub_self]
    rfl

/-- One stream that gives both what it has read. -/
theorem Agrees.exists_stream {x y : Feed β} (h : x.Agrees y) {g g' : List (Option β)}
    (hg : x.Gives g) (hg' : y.Gives g') :
    ∃ inp : ℕ → Option β, (∀ k < g.length, g[k]? = some (inp k)) ∧
      ∀ k < g'.length, g'[k]? = some (inp k) := by
  -- by symmetry, the second one has come further
  have key : ∀ {x y : Feed β} {g g' : List (Option β)}, x.items <+: y.items → x.Agrees y →
      x.Gives g → y.Gives g' → ∃ inp : ℕ → Option β,
        (∀ k < g.length, g[k]? = some (inp k)) ∧ ∀ k < g'.length, g'[k]? = some (inp k) := by
    intro x y g g' hle h hg hg'
    refine ⟨fun k => y.items[k]?, fun k hk => ?_, hg'.items⟩
    rw [hg.items k hk]
    cases hclosed : x.closed with
    | true =>
      have heq : x.items = y.items := hle.eq_of_length_le (h.closed hclosed).length_le
      rw [heq]
    | false =>
      have hlt := lt_of_lt_of_le hk (hg.enough hclosed)
      show some x.items[k]? = some y.items[k]?
      rw [List.prefix_iff_getElem?.mp hle k hlt, List.getElem?_eq_getElem]
  obtain hle | hle := h.items
  · exact key hle h hg hg'
  · obtain ⟨inp, hinp, hinp'⟩ := key hle h.symm hg' hg
    exact ⟨inp, hinp', hinp⟩

end Feed

/-! ### Programs on one stream -/

/-- How many items a program has read, what it has written, and its state. -/
structure Position (β σ : Type*) where
  count : ℕ
  out : List β
  state : σ

namespace Position

variable (act : σ → Act β σ) (inp : ℕ → Option β)

def next (p : Position β σ) : Position β σ :=
  match act p.state with
  | .read next => ⟨p.count + 1, p.out, next (inp p.count)⟩
  | .write b s => ⟨p.count, p.out ++ [b], s⟩
  | .exit => p

theorem out_prefix_next (p : Position β σ) : p.out <+: (p.next act inp).out := by
  rw [next]
  cases act p.state with
  | read next => exact List.prefix_rfl
  | write b s => exact List.prefix_append _ _
  | exit => exact List.prefix_rfl

theorem out_prefix_iterate (p : Position β σ) (m : ℕ) : p.out <+: ((next act inp)^[m] p).out := by
  induction m with
  | zero => exact List.prefix_rfl
  | succ m ih =>
    rw [Function.iterate_succ_apply']
    exact ih.trans (out_prefix_next act inp _)

variable {act inp}

theorem iterate_of_exit {p : Position β σ} (h : act p.state = .exit) (m : ℕ) :
    (next act inp)^[m] p = p :=
  Function.iterate_fixed (by rw [next, h]) m

/-- What a program has done on a stream is what it does there in some number of steps. -/
theorem exists_iterate {s₀ s : σ} {g : List (Option β)} {o : List β} (h : Ran act s₀ g o s)
    (hinp : ∀ k < g.length, g[k]? = some (inp k)) :
    ∃ m, (next act inp)^[m] ⟨0, [], s₀⟩ = ⟨g.length, o, s⟩ := by
  induction h with
  | start => exact ⟨0, rfl⟩
  | @read g o s next x h hact ih =>
    have hlast := hinp g.length (by rw [List.length_append]; exact Nat.lt_succ_self _)
    rw [List.getElem?_concat_length] at hlast
    obtain rfl := Option.some.inj hlast
    obtain ⟨m, hm⟩ := ih fun k hk => by
      have hitem := hinp k (by rw [List.length_append]; exact Nat.lt_add_right _ hk)
      rwa [List.getElem?_append_left hk] at hitem
    refine ⟨m + 1, ?_⟩
    rw [Function.iterate_succ_apply', hm, Position.next, hact, List.length_append]
    rfl
  | write h hact ih =>
    obtain ⟨m, hm⟩ := ih hinp
    refine ⟨m + 1, ?_⟩
    rw [Function.iterate_succ_apply', hm, Position.next, hact]

end Position

/-- **Determinacy.**  On one stream a program writes one stream, whenever its items come. -/
theorem Ran.agrees {act : σ → Act β σ} {s₀ s s' : σ} {g g' : List (Option β)} {o o' : List β}
    (h : Ran act s₀ g o s) (h' : Ran act s₀ g' o' s') {x y : Feed β} (hxy : x.Agrees y)
    (hx : x.Gives g) (hy : y.Gives g') :
    Feed.Agrees ⟨o, (act s).isExit⟩ ⟨o', (act s').isExit⟩ := by
  -- the program that has taken fewer steps has written less, and all if it has exited
  have key : ∀ {p : Position β σ} {inp : ℕ → Option β} (d : ℕ) (p' : Position β σ),
      (Position.next act inp)^[d] p = p' →
        Feed.Agrees ⟨p.out, (act p.state).isExit⟩ ⟨p'.out, (act p'.state).isExit⟩ := by
    rintro p inp d p' rfl
    refine ⟨Or.inl (p.out_prefix_iterate act inp d), fun hexit => ?_,
      fun _ => p.out_prefix_iterate act inp d⟩
    have hact : act p.state = .exit := by
      cases hact : act p.state with
      | read next => rw [hact] at hexit; cases hexit
      | write b s => rw [hact] at hexit; cases hexit
      | exit => rfl
    rw [Position.iterate_of_exit hact]
  obtain ⟨inp, hinp, hinp'⟩ := hxy.exists_stream hx hy
  obtain ⟨m, hm⟩ := Position.exists_iterate h hinp
  obtain ⟨m', hm'⟩ := Position.exists_iterate h' hinp'
  rcases le_total m m' with hle | hle
  · obtain ⟨d, rfl⟩ := Nat.exists_eq_add_of_le' hle
    rw [Function.iterate_add_apply, hm] at hm'
    exact key d _ hm'
  · obtain ⟨d, rfl⟩ := Nat.exists_eq_add_of_le' hle
    rw [Function.iterate_add_apply, hm'] at hm
    exact (key d _ hm).symm

end OsLabs.Lib
