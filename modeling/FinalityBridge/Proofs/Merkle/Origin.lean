import FinalityBridge.Proofs.Merkle.Layer

/-!
# Where a digest comes from

A digest of a hash tree is given, or it is the digest of a leaf, or it joins two others. Running the
functions of a hash tree over such origins in place of digests yields the very byte strings that
they hash. Main statement: of two equal digests, one of which is grounded in known leaves, the other
comes from no other leaf, unless two of the hashed byte strings collide (`Origin.grounded_of_within`).
-/

namespace FinalityBridge.Merkle

/-- Two different byte strings of a list have the same digest. -/
def Collides (hash : Hasher) (inputs : List Bytes) : Prop :=
  ∃ a ∈ inputs, ∃ b ∈ inputs, a ≠ b ∧ hash a = hash b

theorem Collides.mono {hash : Hasher} {inputs more : List Bytes} (h : Collides hash inputs)
    (hsub : inputs ⊆ more) : Collides hash more := by
  rcases h with ⟨a, ha, b, hb, hne, heq⟩
  exact ⟨a, hsub ha, b, hsub hb, hne, heq⟩

/-- Byte strings with equal digests are equal or collide. -/
theorem eq_or_collides {hash : Hasher} {inputs : List Bytes} {a b : Bytes} (ha : a ∈ inputs)
    (hb : b ∈ inputs) (h : hash a = hash b) : a = b ∨ Collides hash inputs := by
  by_cases heq : a = b
  · exact .inl heq
  · exact .inr ⟨a, ha, b, hb, heq, h⟩

/-- How a digest comes about. -/
inductive Origin where
  -- It is given as it is.
  | given (digest : Hash)
  -- It is the digest of a leaf.
  | leaf (content : Bytes)
  -- It joins two digests.
  | node (left right : Origin)

namespace Origin

variable {hash : Hasher}

/-- The digest that comes about. -/
def digest (hash : Hasher) : Origin → Hash
  | given digest => digest
  | leaf content => hash content
  | node left right => join hash (left.digest hash) (right.digest hash)

theorem digest_node (left right : Origin) :
    (node left right).digest hash = join hash (left.digest hash) (right.digest hash) := rfl

/-- The byte strings that are hashed for it. -/
def inputs (hash : Hasher) : Origin → List Bytes
  | given _ => []
  | leaf content => [content]
  | node left right =>
    ((left.digest hash).bytes ++ (right.digest hash).bytes) :: (left.inputs hash ++ right.inputs hash)

/-- The byte strings that are hashed for what may be missing. -/
def inputsOf (hash : Hasher) (origin? : Option Origin) : List Bytes :=
  (origin?.map (inputs hash)).getD []

theorem inputsOf_of_eq_some {origin? : Option Origin} {origin : Origin} (h : origin? = some origin) :
    inputsOf hash origin? = origin.inputs hash := by
  rw [h]
  rfl

/-- All of it is hashed from leaves with a property. -/
def Grounded (P : Bytes → Prop) : Origin → Prop
  | given _ => False
  | leaf content => P content
  | node left right => left.Grounded P ∧ right.Grounded P

/-- One digest takes part in another. -/
inductive Within (part : Origin) : Origin → Prop
  | self : Within part part
  | left {whole : Origin} (other : Origin) : Within part whole → Within part (node whole other)
  | right {whole : Origin} (other : Origin) : Within part whole → Within part (node other whole)

theorem Within.trans {a b c : Origin} (hab : Within a b) (hbc : Within b c) : Within a c := by
  induction hbc with
  | self => exact hab
  | left other _ ih => exact ih.left other
  | right other _ ih => exact ih.right other

-- What is hashed for a part is hashed for the whole.
theorem Within.inputs_subset {part whole : Origin} (h : Within part whole) (hash : Hasher) :
    part.inputs hash ⊆ whole.inputs hash := by
  induction h with
  | self => exact fun _ hmem => hmem
  | left other _ ih => exact fun _ hmem => .tail _ (List.mem_append_left _ (ih hmem))
  | right other _ ih => exact fun _ hmem => .tail _ (List.mem_append_right _ (ih hmem))

theorem within_joinAt (position : Nat) (part other : Origin) :
    Within part (Layer.joinAt node position part other) := by
  unfold Layer.joinAt
  split
  · exact Within.self.left other
  · exact Within.self.right other

-- Every node of a layer takes part in one of the layer above.
theorem exists_within_above {layer : List Origin} {part : Origin} (hpart : part ∈ layer) :
    ∃ n ∈ Layer.above node layer, Within part n := by
  fun_induction Layer.above node layer with
  | case1 left right rest ih =>
    simp only [List.mem_cons] at hpart
    rcases hpart with rfl | rfl | hrest
    · exact ⟨_, List.mem_cons_self, Within.self.left right⟩
    · exact ⟨_, List.mem_cons_self, Within.self.right left⟩
    · rcases ih hrest with ⟨n, hn, hwithin⟩
      exact ⟨n, List.mem_cons_of_mem _ hn, hwithin⟩
  | case2 rest hrest => exact ⟨part, hpart, .self⟩

-- Every node of a layer takes part in the top.
theorem within_top? {layer : List Origin} {part top : Origin} (hpart : part ∈ layer)
    (htop : Layer.top? node layer = some top) : Within part top := by
  fun_induction Layer.top? node layer generalizing part with
  | case1 => cases htop
  | case2 only =>
    injection htop with htop
    rw [List.mem_singleton.1 hpart, htop]
    exact .self
  | case3 left right rest ih =>
    rcases exists_within_above hpart with ⟨n, hn, hwithin⟩
    exact hwithin.trans (ih hn htop)

-- A walk to the top builds on the node that it starts from.
theorem within_climb? {width position : Nat} {part top : Origin} {items rest : List Origin}
    (h : Layer.climb? node width position part items = some (top, rest)) : Within part top := by
  fun_induction Layer.climb? node width position part items with
  | case1 =>
    cases h
    exact .self
  | case2 width position part items hwidth hlast ih => exact ih h
  | case3 => cases h
  | case4 width position part hwidth hlast item items ih =>
    exact (within_joinAt position part item).trans (ih h)

-- A digest that joins two others tells them, unless byte strings collide.
theorem eq_or_collides_of_node {inputs : List Bytes} {left right left' right' : Origin}
    (h : (node left right).digest hash = (node left' right').digest hash)
    (hsub : (node left right).inputs hash ⊆ inputs) (hsub' : (node left' right').inputs hash ⊆ inputs) :
    (left.digest hash = left'.digest hash ∧ right.digest hash = right'.digest hash) ∨
      Collides hash inputs := by
  rcases eq_or_collides (hsub List.mem_cons_self) (hsub' List.mem_cons_self) h with heq | hcollides
  · rcases List.append_inj heq (by simp) with ⟨hleft, hright⟩
    exact .inl ⟨FixedBytes.ext hleft, FixedBytes.ext hright⟩
  · exact .inr hcollides

-- The digest of a leaf that cannot be mistaken for two joined digests differs from what joins two
-- digests, unless byte strings collide.
theorem collides_of_leaf_of_node {inputs : List Bytes} {content : Bytes} {left right : Origin}
    (hcontent : content.length ≠ 64)
    (h : (leaf content).digest hash = (node left right).digest hash)
    (hsub : (leaf content).inputs hash ⊆ inputs)
    (hsub' : (node left right).inputs hash ⊆ inputs) : Collides hash inputs := by
  refine ⟨content, hsub List.mem_cons_self, _, hsub' List.mem_cons_self, ?_, h⟩
  intro heq
  apply hcontent
  rw [heq, List.length_append, FixedBytes.length_bytes, FixedBytes.length_bytes]

-- Joined with their siblings at the same position, equal digests have equal parts, unless byte
-- strings collide.
theorem eq_or_collides_of_joinAt {inputs : List Bytes} {position : Nat}
    {start item known other : Origin}
    (h : (Layer.joinAt node position start item).digest hash =
      (Layer.joinAt node position known other).digest hash)
    (hsub : (Layer.joinAt node position start item).inputs hash ⊆ inputs)
    (hsub' : (Layer.joinAt node position known other).inputs hash ⊆ inputs) :
    (start.digest hash = known.digest hash ∧ item.digest hash = other.digest hash) ∨
      Collides hash inputs := by
  unfold Layer.joinAt at h hsub hsub'
  by_cases hparity : position % 2 = 0
  · rw [if_pos hparity] at hsub hsub'
    rw [if_pos hparity, if_pos hparity] at h
    exact eq_or_collides_of_node h hsub hsub'
  · rw [if_neg hparity] at hsub hsub'
    rw [if_neg hparity, if_neg hparity] at h
    rcases eq_or_collides_of_node h hsub hsub' with ⟨hitem, hstart⟩ | hcollides
    · exact .inl ⟨hstart, hitem⟩
    · exact .inr hcollides

/-- Of two equal digests let one be grounded in leaves that cannot be mistaken for two joined
digests. Every such leaf within the other is among them, unless byte strings collide. -/
theorem grounded_of_within {P : Bytes → Prop} {inputs : List Bytes} {content : Bytes}
    {known other : Origin} (hP : ∀ c, P c → c.length ≠ 64) (hcontent : content.length ≠ 64)
    (hknown : known.Grounded P) (hwithin : Within (leaf content) other)
    (h : other.digest hash = known.digest hash) (hsub : other.inputs hash ⊆ inputs)
    (hsub' : known.inputs hash ⊆ inputs) : P content ∨ Collides hash inputs := by
  -- The descent goes down both digests at once, along the way to the leaf.
  induction hwithin generalizing known with
  | self =>
    cases known with
    | given d => exact hknown.elim
    | leaf c =>
      rcases eq_or_collides (hsub List.mem_cons_self) (hsub' List.mem_cons_self) h with
          rfl | hcollides
      · exact .inl hknown
      · exact .inr hcollides
    | node l r => exact .inr (collides_of_leaf_of_node hcontent h hsub hsub')
  | @left whole sibling _ ih =>
    cases known with
    | given d => exact hknown.elim
    | leaf c => exact .inr (collides_of_leaf_of_node (hP c hknown) h.symm hsub' hsub)
    | node l r =>
      rcases eq_or_collides_of_node h hsub hsub' with ⟨heq, -⟩ | hcollides
      · exact ih hknown.1 heq (fun _ hmem => hsub (.tail _ (List.mem_append_left _ hmem)))
          fun _ hmem => hsub' (.tail _ (List.mem_append_left _ hmem))
      · exact .inr hcollides
  | @right whole sibling _ ih =>
    cases known with
    | given d => exact hknown.elim
    | leaf c => exact .inr (collides_of_leaf_of_node (hP c hknown) h.symm hsub' hsub)
    | node l r =>
      rcases eq_or_collides_of_node h hsub hsub' with ⟨-, heq⟩ | hcollides
      · exact ih hknown.2 heq (fun _ hmem => hsub (.tail _ (List.mem_append_right _ hmem)))
          fun _ hmem => hsub' (.tail _ (List.mem_append_right _ hmem))
      · exact .inr hcollides

end Origin

end FinalityBridge.Merkle
