import Mathlib.Data.List.Basic
import Mathlib.Order.WithBot
import Mathlib.Tactic.Common

namespace Unos.Fences

variable {K A B : Type*}

/-- The children behind the first one, each behind its key. -/
def later (ks : List K) (cs : List A) : List (WithBot K × A) := (ks.map (↑)).zip cs

/-- What a node contributes to the level below. A level is the list of its nodes from left to right,
each with its fence: what is found in the nodes from there on is not below it. -/
def row (f : WithBot K) (ks : List K) (cs : List A) : List (WithBot K × A) :=
  (f :: ks.map (↑)).zip cs

section Rows

variable {f g : WithBot K} {ks k₁ k₂ : List K} {cs c₁ c₂ : List A} {k : K} {c : A}

theorem row_cons (f : WithBot K) (ks : List K) (c : A) (cs : List A) :
    row f ks (c :: cs) = (f, c) :: later ks cs := rfl

theorem later_cons (k : K) (ks : List K) (cs : List A) : later (k :: ks) cs = row k ks cs := rfl

theorem row_append (h : k₁.length + 1 = c₁.length) :
    row f (k₁ ++ k₂) (c₁ ++ c₂) = row f k₁ c₁ ++ later k₂ c₂ := by
  rw [row, row, later, List.map_append, ← List.cons_append, List.zip_append]
  rw [List.length_cons, List.length_map, h]

theorem map_snd_row (h : ks.length + 1 = cs.length) : (row f ks cs).map Prod.snd = cs := by
  apply List.map_snd_zip
  rw [List.length_cons, List.length_map, h]

theorem length_row (h : ks.length + 1 = cs.length) : (row f ks cs).length = cs.length := by
  rw [← List.length_map Prod.snd, map_snd_row h]

theorem exists_key_of_mem_later {x : WithBot K × A} (h : x ∈ later ks cs) : ∃ k ∈ ks, x.1 = ↑k := by
  obtain ⟨k, hk, heq⟩ := List.mem_map.mp (List.of_mem_zip h).1
  exact ⟨k, hk, heq.symm⟩

theorem row_eq_append_cons {r₁ r₂ : List (WithBot K × A)} (hlen : ks.length + 1 = cs.length)
    (h : row f ks cs = r₁ ++ (g, c) :: r₂) :
    ∃ k₁ k₂ c₁ c₂, ks = k₁ ++ k₂ ∧ cs = c₁ ++ c :: c₂ ∧ k₁.length = c₁.length ∧
      c₁.length = r₁.length ∧ k₂.length = c₂.length ∧ row f k₁ (c₁ ++ [c]) = r₁ ++ [(g, c)] ∧
      later k₂ c₂ = r₂ := by
  have hcs : cs = r₁.map Prod.snd ++ c :: r₂.map Prod.snd := by
    rw [← map_snd_row hlen, h, List.map_append, List.map_cons]
  have hk : r₁.length ≤ ks.length := by
    rw [hcs, List.length_append, List.length_map, List.length_cons] at hlen
    omega
  refine ⟨ks.take r₁.length, ks.drop r₁.length, r₁.map Prod.snd, r₂.map Prod.snd,
    (List.take_append_drop _ _).symm, hcs, ?_, List.length_map _, ?_, ?_⟩
  · rw [List.length_take, List.length_map]
    omega
  · rw [hcs, List.length_append, List.length_cons, List.length_map] at hlen
    rw [List.length_drop]
    omega
  · have hsplit : row f ks cs = row f (ks.take r₁.length) (r₁.map Prod.snd ++ [c]) ++
        later (ks.drop r₁.length) (r₂.map Prod.snd) := by
      rw [← row_append, List.take_append_drop, List.append_assoc, List.singleton_append, ← hcs]
      rw [List.length_take, List.length_append, List.length_map, List.length_singleton]
      omega
    rw [h, ← List.singleton_append, ← List.append_assoc] at hsplit
    obtain ⟨h1, h2⟩ := List.append_inj hsplit (by
      rw [length_row]
      · simp
      · rw [List.length_take, List.length_append, List.length_map, List.length_singleton]
        omega)
    exact ⟨h1.symm, h2.symm⟩

theorem row_eq_append_pair {r₁ r₂ : List (WithBot K × A)} {a b : A} {g' : WithBot K}
    (hlen : ks.length + 1 = cs.length) (h : row f ks cs = r₁ ++ (g, a) :: (g', b) :: r₂) :
    ∃ (k₁ : List K) (k : K) (k₂ : List K) (c₁ c₂ : List A), ks = k₁ ++ k :: k₂ ∧
      cs = c₁ ++ a :: b :: c₂ ∧ g' = ↑k ∧
      k₁.length = c₁.length ∧ c₁.length = r₁.length ∧ k₂.length = c₂.length ∧
      row f k₁ (c₁ ++ [a]) = r₁ ++ [(g, a)] ∧ later k₂ c₂ = r₂ := by
  obtain ⟨k₁, k₂, c₁, c₂, hks, hcs, h1, h2, h3, h4, h5⟩ := row_eq_append_cons hlen h
  cases k₂ with
  | nil => exact absurd h5 (by simp [later])
  | cons k k₂ =>
    cases c₂ with
    | nil => exact absurd h3 (by simp)
    | cons b' c₂ =>
      rw [later_cons, row_cons] at h5
      obtain ⟨hb, hlater⟩ := List.cons.inj h5
      obtain ⟨hk, rfl⟩ := Prod.mk.inj hb
      exact ⟨k₁, k, k₂, c₁, c₂, hks, hcs, hk.symm, h1, h2, Nat.succ.inj h3, h4, hlater⟩

/-- The first part of a row, up to one of its children, with others behind it. -/
theorem row_join {r₁ : List (WithBot K × A)} (hlen : k₁.length = c₁.length)
    (hrow : row f k₁ (c₁ ++ [c]) = r₁ ++ [(g, c)]) :
    row f (k₁ ++ k₂) (c₁ ++ c :: c₂) = r₁ ++ (g, c) :: later k₂ c₂ := by
  rw [← List.singleton_append, ← List.append_assoc, row_append, hrow, List.append_assoc,
    List.singleton_append]
  rw [List.length_append, List.length_singleton, hlen]

theorem row_append_row (h : k₁.length + 1 = c₁.length) :
    row f (k₁ ++ k :: k₂) (c₁ ++ c₂) = row f k₁ c₁ ++ row k k₂ c₂ := by
  rw [row_append h, later_cons]

theorem row_eq_concat (h : ks.length = cs.length) :
    ∃ r g, row f ks (cs ++ [c]) = r ++ [(g, c)] ∧ (g = f ∨ ∃ k ∈ ks, g = ↑k) := by
  rcases List.eq_nil_or_concat ks with rfl | ⟨ks', k, rfl⟩
  · obtain rfl := List.eq_nil_of_length_eq_zero h.symm
    exact ⟨[], f, rfl, Or.inl rfl⟩
  · rw [List.concat_eq_append] at h ⊢
    refine ⟨row f ks' cs, k, ?_, Or.inr ⟨k, by simp, rfl⟩⟩
    rw [row_append (by rw [← h]; simp)]
    rfl

end Rows

theorem flatMap_eq_append_cons {l : List B} {f : B → List A} {as bs : List A} {x : A}
    (h : l.flatMap f = as ++ x :: bs) :
    ∃ l₁ y l₂ c₁ c₂, l = l₁ ++ y :: l₂ ∧ f y = c₁ ++ x :: c₂ ∧ as = l₁.flatMap f ++ c₁ ∧
      bs = c₂ ++ l₂.flatMap f := by
  induction l generalizing as with
  | nil => exact absurd h (by simp)
  | cons y l ih =>
    rw [List.flatMap_cons, List.append_eq_append_iff] at h
    rcases h with ⟨as', has, hrest⟩ | ⟨bs', hy, hrest⟩
    · -- the place is in a later part
      obtain ⟨l₁, z, l₂, c₁, c₂, rfl, hz, has', hbs⟩ := ih hrest
      refine ⟨y :: l₁, z, l₂, c₁, c₂, rfl, hz, ?_, hbs⟩
      rw [has, has', List.flatMap_cons, List.append_assoc]
    · cases bs' with
      | nil =>
        have hbehind : l.flatMap f = [] ++ x :: bs := hrest.symm
        obtain ⟨l₁, z, l₂, c₁, c₂, rfl, hz, has', hbs⟩ := ih hbehind
        refine ⟨y :: l₁, z, l₂, c₁, c₂, rfl, hz, ?_, hbs⟩
        rw [List.flatMap_cons, List.append_assoc, ← has', hy, List.append_nil, List.append_nil]
      | cons x' bs' =>
        obtain ⟨rfl, hbs⟩ := List.cons.inj hrest
        exact ⟨[], y, l, as, bs', rfl, hy, by simp, hbs⟩

section Order

variable [LinearOrder K]

def Rising (l : List (WithBot K × A)) : Prop := l.Pairwise fun x y => x.1 < y.1

/-- A level rises if the one below does. -/
theorem Rising.above {l : List (WithBot K × B)} {f : WithBot K × B → List (WithBot K × A)}
    (h : Rising (l.flatMap f)) (hfence : ∀ x ∈ l, ∃ c r, f x = (x.1, c) :: r) : Rising l := by
  refine (List.pairwise_flatMap.mp h).2.imp_of_mem ?_
  intro x y hx hy hxy
  obtain ⟨c, r, hc⟩ := hfence x hx
  obtain ⟨d, s, hd⟩ := hfence y hy
  rw [hc, hd] at hxy
  exact hxy _ List.mem_cons_self _ List.mem_cons_self

/-- The keys of a node rise. -/
theorem Rising.keys {f : WithBot K} {ks : List K} {cs : List A} (hlen : ks.length + 1 = cs.length)
    (h : Rising (row f ks cs)) : ks.Pairwise (· < ·) := by
  have hfst : (row f ks cs).map Prod.fst = f :: ks.map (↑) := by
    apply List.map_fst_zip
    rw [List.length_cons, List.length_map, hlen]
  have hfences : (f :: ks.map ((↑) : K → WithBot K)).Pairwise (· < ·) := by
    rw [← hfst, List.pairwise_map]
    exact h
  have hkeys := List.pairwise_map.mp (List.pairwise_cons.mp hfences).2
  exact hkeys.imp WithBot.coe_lt_coe.mp

/-- Where a search for the key goes through a level: the last fence that is not above it. -/
def Slot (key : K) (x : WithBot K × A) (l₂ : List (WithBot K × A)) : Prop :=
  x.1 ≤ key ∧ ∀ y ∈ l₂, (key : WithBot K) < y.1

/-- Below a slot there is a slot in the row, with `k₁` the keys that are not above. -/
theorem exists_slot_row {key : K} {f : WithBot K} {k₁ k₂ : List K} {cs : List A}
    (hlen : (k₁ ++ k₂).length + 1 = cs.length) (hf : f ≤ key) (h1 : ∀ k ∈ k₁, k ≤ key)
    (h2 : ∀ k ∈ k₂, key < k) : ∃ r₁ x r₂, row f (k₁ ++ k₂) cs = r₁ ++ x :: r₂ ∧
      cs[k₁.length]? = some x.2 ∧ Slot key x r₂ := by
  rw [List.length_append] at hlen
  have hc : cs.take k₁.length ++ cs[k₁.length] :: cs.drop (k₁.length + 1) = cs := by
    rw [← List.drop_eq_getElem_cons (by omega), List.take_append_drop]
  have htake : k₁.length = (cs.take k₁.length).length := by
    rw [List.length_take]
    omega
  have hlen' : k₁.length + 1 = (cs.take k₁.length ++ [cs[k₁.length]]).length := by
    rw [List.length_append, ← htake, List.length_singleton]
  obtain ⟨r, g, hrow, hg⟩ := row_eq_concat (f := f) (c := cs[k₁.length]) htake
  refine ⟨r, (g, cs[k₁.length]), later k₂ (cs.drop (k₁.length + 1)), ?_,
    List.getElem?_eq_getElem _, ?_, fun y hy => ?_⟩
  · conv_lhs => rw [← hc]
    rw [← List.singleton_append, ← List.append_assoc, row_append hlen', hrow,
      List.append_assoc, List.singleton_append]
  · rcases hg with rfl | ⟨k, hk, rfl⟩
    · exact hf
    · exact WithBot.coe_le_coe.mpr (h1 k hk)
  · obtain ⟨k, hk, hy⟩ := exists_key_of_mem_later hy
    rw [hy]
    exact WithBot.coe_lt_coe.mpr (h2 k hk)

/-- Each node holds keys from its fence on and below the next one, in order. -/
structure Fenced (keys : A → List K) (l : List (WithBot K × A)) : Prop where
  apart : l.Pairwise fun x y => x.1 < y.1 ∧ ∀ k ∈ keys x.2, (k : WithBot K) < y.1
  low : ∀ x ∈ l, ∀ k ∈ keys x.2, x.1 ≤ k
  sorted : ∀ x ∈ l, (keys x.2).Pairwise (· < ·)

variable {keys keys' : A → List K} {l l₁ l₂ m m' : List (WithBot K × A)}
  {x y : WithBot K × A} {key : K}

theorem Fenced.rising (h : Fenced keys l) : Rising l := h.apart.imp And.left

theorem Fenced.congr (h : Fenced keys l) (hkeys : ∀ x ∈ l, keys' x.2 = keys x.2) :
    Fenced keys' l := by
  refine ⟨h.apart.imp_of_mem fun hx _ hxy => ?_, fun x hx => ?_, fun x hx => ?_⟩
  · rw [hkeys _ hx]
    exact hxy
  · rw [hkeys x hx]
    exact h.low x hx
  · rw [hkeys x hx]
    exact h.sorted x hx

/-- What a part in the middle may be replaced by. -/
theorem Fenced.replace (h : Fenced keys (l₁ ++ (m ++ l₂))) (hm : Fenced keys' m')
    (hkeep : ∀ x ∈ l₁ ++ l₂, keys' x.2 = keys x.2) (hlow : ∀ x ∈ m', ∃ y ∈ m, y.1 ≤ x.1)
    (hhigh : ∀ x ∈ m', ∀ y ∈ l₂, x.1 < y.1 ∧ ∀ k ∈ keys' x.2, (k : WithBot K) < y.1) :
    Fenced keys' (l₁ ++ (m' ++ l₂)) := by
  obtain ⟨hapart1, hapart2, hapart12⟩ := List.pairwise_append.mp h.apart
  obtain ⟨-, hapart3, -⟩ := List.pairwise_append.mp hapart2
  have hrest : Fenced keys' (l₁ ++ l₂) := by
    refine Fenced.congr ⟨List.pairwise_append.mpr ⟨hapart1, hapart3, fun x hx y hy => ?_⟩,
      fun x hx => h.low x ?_, fun x hx => h.sorted x ?_⟩ hkeep
    · exact hapart12 x hx y (List.mem_append_right _ hy)
    all_goals
      rw [List.mem_append] at hx ⊢
      exact hx.imp_right (List.mem_append_right _)
  obtain ⟨hrest1, hrest2, hrest12⟩ := List.pairwise_append.mp hrest.apart
  refine ⟨List.pairwise_append.mpr ⟨hrest1, List.pairwise_append.mpr ⟨hm.apart, hrest2, hhigh⟩,
    fun x hx y hy => ?_⟩, fun x hx => ?_, fun x hx => ?_⟩
  · rcases List.mem_append.mp hy with hy | hy
    · obtain ⟨z, hz, hzy⟩ := hlow y hy
      obtain ⟨hlt, hkeys⟩ := hapart12 x hx z (List.mem_append_left _ hz)
      rw [hkeep x (List.mem_append_left _ hx)]
      exact ⟨hlt.trans_le hzy, fun k hk => (hkeys k hk).trans_le hzy⟩
    · exact hrest12 x hx y hy
  · simp only [List.mem_append] at hx
    rcases hx with hx | hx | hx
    · exact hrest.low x (List.mem_append_left _ hx)
    · exact hm.low x hx
    · exact hrest.low x (List.mem_append_right _ hx)
  · simp only [List.mem_append] at hx
    rcases hx with hx | hx | hx
    · exact hrest.sorted x (List.mem_append_left _ hx)
    · exact hm.sorted x hx
    · exact hrest.sorted x (List.mem_append_right _ hx)

/-- A part of a level. -/
theorem Fenced.sublist (h : Fenced keys l) (hm : m.Sublist l) : Fenced keys m :=
  ⟨h.apart.sublist hm, fun x hx => h.low x (hm.subset hx), fun x hx => h.sorted x (hm.subset hx)⟩

/-- Where the keys behind a place are. -/
theorem Fenced.behind (h : Fenced keys (l₁ ++ x :: l₂)) (hy : y ∈ l₂) :
    x.1 < y.1 ∧ ∀ k ∈ keys x.2, (k : WithBot K) < y.1 :=
  (List.pairwise_cons.mp (List.pairwise_append.mp h.apart).2.1).1 y hy

theorem Fenced.singleton (hlow : ∀ k ∈ keys x.2, x.1 ≤ k) (hsorted : (keys x.2).Pairwise (· < ·)) :
    Fenced keys [x] :=
  ⟨List.pairwise_singleton _ _, fun _ hy => List.mem_singleton.mp hy ▸ hlow,
    fun _ hy => List.mem_singleton.mp hy ▸ hsorted⟩

/-- Two places with the first key of the second one between them. -/
theorem Fenced.pair {a b : A} {f : WithBot K} (hsorted : (keys a ++ keys b).Pairwise (· < ·))
    (hlow : ∀ k ∈ keys a, f ≤ k) (hne : keys a ≠ []) (hkey : (keys b).head? = some key) :
    Fenced keys [(f, a), (↑key, b)] := by
  obtain ⟨ha, hb, hab⟩ := List.pairwise_append.mp hsorted
  have hmem : key ∈ keys b := List.mem_of_mem_head? hkey
  have hlt : ∀ k ∈ keys a, (k : WithBot K) < key := fun k hk =>
    WithBot.coe_lt_coe.mpr (hab k hk key hmem)
  obtain ⟨first, rest, hfirst⟩ := List.exists_cons_of_ne_nil hne
  have hfirstMem : first ∈ keys a := hfirst ▸ List.mem_cons_self
  refine ⟨List.pairwise_pair.mpr ⟨(hlow first hfirstMem).trans_lt (hlt first hfirstMem), hlt⟩,
    fun x hx => ?_, fun x hx => ?_⟩
  · rcases List.mem_cons.mp hx with rfl | hx
    · exact hlow
    · obtain rfl := List.mem_singleton.mp hx
      intro k hk
      obtain ⟨rest, hrest⟩ := List.head?_eq_some_iff.mp hkey
      rw [hrest] at hb
      rw [hrest, List.mem_cons] at hk
      rcases hk with rfl | hk
      · exact le_refl _
      · exact WithBot.coe_le_coe.mpr ((List.pairwise_cons.mp hb).1 k hk).le
  · rcases List.mem_cons.mp hx with rfl | hx
    · exact ha
    · obtain rfl := List.mem_singleton.mp hx
      exact hb

theorem Fenced.sorted_flatMap (h : Fenced keys l) :
    (l.flatMap fun x => keys x.2).Pairwise (· < ·) := by
  refine List.pairwise_flatMap.mpr ⟨h.sorted, h.apart.imp_of_mem fun {x y} _ hy hxy => ?_⟩
  intro k hk k' hk'
  exact WithBot.coe_lt_coe.mp ((hxy.2 k hk).trans_le (h.low y hy k' hk'))

theorem Fenced.mem_of_slot (h : Fenced keys (l₁ ++ x :: l₂)) (hx : Slot key x l₂)
    (hy : y ∈ l₁ ++ x :: l₂) (hk : key ∈ keys y.2) : key ∈ keys x.2 := by
  rcases List.mem_append.mp hy with hy1 | hy2
  · have hlt := ((List.pairwise_append.mp h.apart).2.2 y hy1 x List.mem_cons_self).2 key hk
    exact absurd hx.1 hlt.not_ge
  · rcases List.mem_cons.mp hy2 with rfl | hy2
    · exact hk
    · exact absurd (h.low y hy key hk) (hx.2 y hy2).not_ge

/-- A level is fenced if the one below is. -/
theorem Fenced.above {keys' : B → List K} {l : List (WithBot K × B)}
    {f : WithBot K × B → List (WithBot K × A)} (h : Fenced keys (l.flatMap f))
    (hfence : ∀ x ∈ l, ∃ c r, f x = (x.1, c) :: r)
    (hkeys : ∀ x ∈ l, keys' x.2 = (f x).flatMap fun y => keys y.2) : Fenced keys' l := by
  have hpart : ∀ x ∈ l, Fenced keys (f x) := fun x hx =>
    h.sublist (List.sublist_flatten_of_mem (List.mem_map_of_mem hx))
  refine ⟨(List.pairwise_flatMap.mp h.apart).2.imp_of_mem fun {x y} hx hy hxy => ?_,
    fun x hx k hk => ?_, fun x hx => ?_⟩
  · obtain ⟨c, r, hc⟩ := hfence x hx
    obtain ⟨d, s, hd⟩ := hfence y hy
    have hhead : ∀ z ∈ f x, z.1 < y.1 ∧ ∀ k ∈ keys z.2, (k : WithBot K) < y.1 := fun z hz =>
      hxy z hz (y.1, d) (hd ▸ List.mem_cons_self)
    refine ⟨(hhead (x.1, c) (hc ▸ List.mem_cons_self)).1, fun k hk => ?_⟩
    rw [hkeys x hx] at hk
    obtain ⟨z, hz, hkz⟩ := List.mem_flatMap.mp hk
    exact (hhead z hz).2 k hkz
  · rw [hkeys x hx] at hk
    obtain ⟨z, hz, hkz⟩ := List.mem_flatMap.mp hk
    obtain ⟨c, r, hc⟩ := hfence x hx
    have hz1 := (hpart x hx).low z hz k hkz
    have hapart := (hpart x hx).rising
    rw [hc] at hz hapart
    rcases List.mem_cons.mp hz with rfl | hz
    · exact hz1
    · exact ((List.pairwise_cons.mp hapart).1 z hz).le.trans hz1
  · rw [hkeys x hx]
    exact (hpart x hx).sorted_flatMap

/-- A key of a node separates what is below its children. -/
theorem Fenced.separates {f : WithBot K} {k₁ k₂ : List K} {c₁ c₂ : List A}
    (h : Fenced keys (row f (k₁ ++ key :: k₂) (c₁ ++ c₂))) (h1 : k₁.length + 1 = c₁.length)
    (h2 : k₂.length + 1 = c₂.length) :
    (∀ c ∈ c₁, ∀ k ∈ keys c, k < key) ∧ ∀ c ∈ c₂, ∀ k ∈ keys c, key ≤ k := by
  rw [row_append_row h1] at h
  obtain ⟨-, hright, hcross⟩ := List.pairwise_append.mp h.apart
  obtain ⟨c, cs, rfl⟩ := List.exists_cons_of_ne_nil (l := c₂) fun hnil => by
    rw [hnil, List.length_nil] at h2
    omega
  rw [row_cons] at hright hcross h
  refine ⟨fun a ha k hk => ?_, fun a ha k hk => ?_⟩
  · rw [← map_snd_row (f := f) h1] at ha
    obtain ⟨y, hy, rfl⟩ := List.mem_map.mp ha
    exact WithBot.coe_lt_coe.mp ((hcross y hy _ List.mem_cons_self).2 k hk)
  · rw [← map_snd_row (f := (key : WithBot K)) h2] at ha
    obtain ⟨y, hy, rfl⟩ := List.mem_map.mp ha
    rw [row_cons] at hy
    have hlow := h.low y (List.mem_append_right _ hy) k hk
    rcases List.mem_cons.mp hy with rfl | hy
    · exact WithBot.coe_le_coe.mp hlow
    · exact WithBot.coe_le_coe.mp (((List.pairwise_cons.mp hright).1 y hy).1.le.trans hlow)

end Order

end Unos.Fences
