import Homebase.Multilite.SchemaTargets

set_option autoImplicit false

/-!
# Properties: targets separate and nest

Targets of more than twenty layouts share one space of keys, with images and names of any depth
and content.  The layouts are read back from the labels: `readTarget` finds the target of a list
of components, with a name as it was written.  So no two targets have a key in common, and what
extends a key is read as a member of its target or not at all.
-/

namespace Homebase.Properties

open Foundation Homebase.Core Multilite List

variable {sha256 : Bytes → ByteArr 32} {parts : IndexId → Nat} {arity : ForeignKeyId → Nat}

/-! ## Reading a target -/

/-- Nothing follows. -/
def ending (rest : List Bytes) (target : Target) : Option Target :=
  if rest = [] then some target else none

/-- An identity follows. -/
def identity (rest : List Bytes) (next : ByteArr 16 → List Bytes → Option Target) :
    Option Target :=
  match rest with
  | [] => none
  | bytes :: rest => (ByteArr.ofBytes 16 bytes).bind fun id => next id rest

/-- A name ends the key. -/
def named (rest : List Bytes) (target : Bytes → Target) : Option Target :=
  match rest with
  | [] => none
  | name :: rest => ending rest (target name)

/-- The last part of a key with the images of an index. -/
def imaged (count : Nat) (images : List Bytes) (target : List Bytes → LogicalTarget) :
    Option Target :=
  if images.length = count then some (.rowChange (target images)) else none

/-- What follows the parent index of a reference. -/
def readForeign (parts : IndexId → Nat) (count : Nat) (rest : List Bytes)
    (target : List Bytes → LogicalTarget)
    (reference : List Bytes → IndexId → List Bytes → LogicalTarget) : Option Target :=
  if rest.length ≤ count then imaged count rest target
  else identity (rest.drop count) fun child images =>
    imaged (parts child) images (reference (rest.take count) child)

/-- The targets inside of a table. -/
def readInside (parts : IndexId → Nat) (arity : ForeignKeyId → Nat) (table : TableId)
    (label : Bytes) (rest : List Bytes) : Option Target :=
  if label = Codes.schema then
    identity rest fun revision rest => ending rest (.tableSchema table revision)
  else if label = Codes.names then
    if rest.head? = some Codes.columns then named rest.tail (.columnName table)
    else if rest.head? = some Codes.constraints then named rest.tail (.constraintName table)
    else none
  else if label = Codes.activeConstraints then
    identity rest fun id rest => ending rest (.activeConstraint table id)
  else if label = Codes.constraintReferences then
    identity rest fun id rest =>
      if rest = [] then some (.constraintReferencePrefix table id)
      else identity rest fun relationship rest =>
        ending rest (.constraintReference table id relationship)
  else if label = Codes.columnDependencies then
    identity rest fun column rest =>
      if rest = [] then some (.columnDependencyPrefix table column)
      else if rest.head? = some Codes.indexes then
        identity rest.tail fun index rest => ending rest (.columnIndexDependency table column index)
      else if rest.head? = some Codes.columns then
        identity rest.tail fun owner rest => ending rest (.columnCheckDependency table column owner)
      else if rest.head? = some Codes.viewDependencies then
        named rest.tail (.columnViewDependency table column)
      else none
  else if label = Codes.activePrimaryIndex then ending rest (.rowChange (.activePrimaryIndex table))
  else if label = Codes.activeSchemaRevision then ending rest (.activeSchemaRevision table)
  else if label = Codes.indexDefinitions then
    identity rest fun index rest => ending rest (.indexDefinition table index)
  else if label = Codes.writeRevision then ending rest (.rowChange (.writeRevision table))
  else if label = Codes.viewDependencies then
    if rest = [] then some (.viewDependencyPrefix table) else named rest (.viewDependency table)
  else if label = Codes.rows then
    if rest = [] then some (.rowPrefix table)
    else identity rest fun index images => imaged (parts index) images (.row table index)
  else if label = Codes.unique then
    identity rest fun index images => imaged (parts index) images (.uniqueOwner table index)
  else if label = Codes.foreignReferences then
    identity rest fun relationship rest => identity rest fun index rest =>
      readForeign parts (arity relationship) rest
        (.foreignReferencePrefix table relationship index)
        (.foreignReference table relationship index)
  else none

/-- The target of a list of components. -/
def readTarget (parts : IndexId → Nat) (arity : ForeignKeyId → Nat) : List Bytes → Option Target
  | _ :: space :: rest =>
    if space = Codes.tables then
      identity rest fun table rest =>
        match rest with
        | [] => some (.tableRoot table)
        | label :: rest => readInside parts arity table label rest
    else if space = Codes.schema then
      if rest.head? = some Codes.log then
        identity rest.tail fun mutation rest => ending rest (.schemaLog mutation)
      else named (rest.drop 2) .schemaObjectName
    else if space = Codes.transactions then
      identity rest.tail fun transaction rest => ending rest (.transactionLog transaction)
    else if space = Codes.metadata then ending rest.tail .userVersion
    else none
  | _ => none

@[simp] theorem ending_nil (target : Target) : ending [] target = some target := rfl

@[simp] theorem ending_cons (bytes : Bytes) (rest : List Bytes) (target : Target) :
    ending (bytes :: rest) target = none := rfl

@[simp] theorem identity_cons (id : ByteArr 16) (rest : List Bytes)
    (next : ByteArr 16 → List Bytes → Option Target) :
    identity (id.bytes :: rest) next = next id rest := by
  rw [identity, ByteArr.ofBytes_bytes, Option.bind_some]

/-! ## The layouts -/

/-- Every key has as many images as its index, or its relationship, has parts. -/
def Fits (parts : IndexId → Nat) (arity : ForeignKeyId → Nat) : Target → Prop
  | .rowChange (.row _ index images) => images.length = parts index
  | .rowChange (.uniqueOwner _ index images) => images.length = parts index
  | .rowChange (.foreignReferencePrefix _ relationship _ images) =>
      images.length = arity relationship
  | .rowChange (.foreignReference _ relationship _ images child childImages) =>
      images.length = arity relationship ∧ childImages.length = parts child
  | _ => True

@[simp] theorem readTarget_inside (table : TableId) (label : Bytes) (rest : List Bytes) :
    readTarget parts arity (Codes.root :: Codes.tables :: table.bytes :: label :: rest) =
      readInside parts arity table label rest := by
  simp [readTarget]

section Foreign

variable {images : List Bytes} {count : Nat} (h : images.length = count)
  (target : List Bytes → LogicalTarget)
  (reference : List Bytes → IndexId → List Bytes → LogicalTarget)

include h

theorem readForeign_images :
    readForeign parts count images target reference = some (.rowChange (target images)) := by
  rw [readForeign, if_pos h.le, imaged, if_pos h]

theorem readForeign_append (bytes : Bytes) (rest : List Bytes) :
    readForeign parts count (images ++ bytes :: rest) target reference =
      identity (bytes :: rest) fun child childImages =>
        imaged (parts child) childImages (reference images child) := by
  rw [readForeign, if_neg (by simp [← h]), drop_left' h, take_left' h]

end Foreign

/-- A target is read back from its components. -/
theorem readTarget_components {t : Target} (hfits : Fits parts arity t) :
    readTarget parts arity (t.components id) = some t := by
  cases t with
  | schemaLog mutation | schemaObjectName canonical | transactionLog transaction | userVersion
  | tableRoot table =>
    simp +decide [readTarget, named]
  | rowChange target =>
    cases target with
    | activePrimaryIndex table | writeRevision table => simp +decide [readInside]
    | row table index images | uniqueOwner table index images =>
      have hcount : images.length = parts index := hfits
      simp +decide [readInside, imaged, hcount]
    | foreignReferencePrefix parent relationship parentIndex images =>
      simp +decide [readInside, readForeign_images hfits]
    | foreignReference parent relationship parentIndex images child childImages =>
      simp +decide [readInside, readForeign_append hfits.1, imaged, hfits.2]
  | _ => simp +decide [readInside, named]

/-! ## What extends a key -/

section Found

variable {P : Target → Prop} {rest : List Bytes}

theorem of_none : ∀ u ∈ (none : Option Target), P u := by
  intro u hu
  cases hu

variable {target : Target}

theorem of_some (h : P target) : ∀ u ∈ some target, P u := by
  intro u hu
  exact Option.some.inj hu ▸ h

theorem of_ite {c : Prop} [Decidable c] {a b : Option Target} (ha : ∀ u ∈ a, P u)
    (hb : ∀ u ∈ b, P u) : ∀ u ∈ (if c then a else b), P u := by
  split <;> assumption

theorem of_ending (h : P target) : ∀ u ∈ ending rest target, P u :=
  of_ite (of_some h) of_none

theorem of_identity {next : ByteArr 16 → List Bytes → Option Target}
    (h : ∀ id after, ∀ u ∈ next id after, P u) : ∀ u ∈ identity rest next, P u := by
  cases rest with
  | nil => exact of_none
  | cons bytes rest =>
    intro u hu
    obtain ⟨id, -, hnext⟩ := Option.bind_eq_some_iff.mp hu
    exact h id rest u hnext

theorem of_named {target : Bytes → Target} (h : ∀ name, P (target name)) :
    ∀ u ∈ named rest target, P u := by
  cases rest with
  | nil => exact of_none
  | cons name rest => exact of_ending (h name)

theorem of_imaged {count : Nat} {target : List Bytes → LogicalTarget}
    (h : P (.rowChange (target rest))) : ∀ u ∈ imaged count rest target, P u :=
  of_ite (of_some h) of_none

end Found

/-- What is read below a table is a member of its root. -/
theorem readInside_enclosing (table : TableId) (label : Bytes) (rest : List Bytes) :
    ∀ u ∈ readInside parts arity table label rest, .tableRoot table ∈ u.enclosing := by
  unfold readInside readForeign
  repeat' first
    | exact of_none
    | exact of_ending mem_cons_self
    | exact of_some mem_cons_self
    | exact of_imaged mem_cons_self
    | exact of_named fun _ => mem_cons_self
    | apply of_ite
    | refine of_identity fun _ _ => ?_

variable {t : Target}

/-- What extends the key of a target is read as one of its members. -/
theorem enclosing_of_readTarget (hfits : Fits parts arity t) (bytes : Bytes) (rest : List Bytes) :
    ∀ u ∈ readTarget parts arity (t.components id ++ bytes :: rest), t ∈ u.enclosing := by
  have hmember : ∀ root : Target, t ∈ [root, t] := fun root => by simp
  cases t with
  | schemaLog mutation | schemaObjectName canonical | transactionLog transaction | userVersion =>
    simp +decide [readTarget, named]
  | tableRoot table =>
    rw [Target.components, Target.under]
    exact readTarget_inside table bytes rest ▸ readInside_enclosing table bytes rest
  | rowPrefix table =>
    simp +decide only [Target.components, Target.under, cons_append, nil_append,
      readTarget_inside, readInside, reduceCtorEq, reduceIte]
    exact of_identity fun index images => of_imaged (hmember _)
  | constraintReferencePrefix table id =>
    simp +decide only [Target.components, Target.under, cons_append, nil_append,
      readTarget_inside, readInside, identity_cons, reduceCtorEq, reduceIte]
    exact of_identity fun relationship _ => of_ending (hmember _)
  | columnDependencyPrefix table column =>
    simp +decide only [Target.components, Target.under, cons_append, nil_append,
      readTarget_inside, readInside, identity_cons, reduceCtorEq, reduceIte]
    refine of_ite ?_ (of_ite ?_ (of_ite ?_ of_none))
    · exact of_identity fun index _ => of_ending (hmember _)
    · exact of_identity fun owner _ => of_ending (hmember _)
    · exact of_named fun canonical => hmember _
  | viewDependencyPrefix table =>
    simp +decide only [Target.components, Target.under, cons_append, nil_append,
      readTarget_inside, readInside, reduceCtorEq, reduceIte]
    exact of_named fun canonical => hmember _
  | rowChange target =>
    cases target with
    | activePrimaryIndex table | writeRevision table => simp +decide [readInside]
    | row table index images | uniqueOwner table index images =>
      have hcount : images.length = parts index := hfits
      simp +decide [readInside, imaged, hcount]
    | foreignReferencePrefix parent relationship parentIndex images =>
      simp +decide only [Target.components, LogicalTarget.components, foreignReferenceComponents,
        cons_append, nil_append, readTarget_inside, readInside, identity_cons,
        readForeign_append hfits, reduceIte]
      exact of_identity fun child childImages => of_imaged (hmember _)
    | foreignReference parent relationship parentIndex images child childImages =>
      simp +decide [readInside, readForeign_append hfits.1, imaged, hfits.2]
  | _ => simp +decide [readInside, named]

variable {u : Target}

/-- The key of a member extends that of each target that names it. -/
theorem components_of_enclosing (name : Bytes → Bytes) {t : Target} (h : t ∈ u.enclosing) :
    ∃ bytes rest, u.components name = t.components name ++ bytes :: rest := by
  cases u with
  | rowChange target =>
    cases target <;> simp only [Target.enclosing, mem_cons, not_mem_nil, or_false] at h
    case row | foreignReference =>
      obtain rfl | rfl := h
      · exact ⟨_, _, rfl⟩
      · exact ⟨_, _, rfl⟩
    all_goals
      subst h
      exact ⟨_, _, rfl⟩
  | constraintReference | columnIndexDependency | columnCheckDependency | columnViewDependency
  | viewDependency =>
    simp only [Target.enclosing, mem_cons, not_mem_nil, or_false] at h
    obtain rfl | rfl := h
    · exact ⟨_, _, rfl⟩
    · exact ⟨_, _, rfl⟩
  | schemaLog | schemaObjectName | tableRoot | transactionLog | userVersion => cases h
  | _ =>
    cases mem_singleton.mp h
    exact ⟨_, _, rfl⟩

/-! ## Names as they are written -/

/-- The names that a target writes. -/
def writtenNames : Target → List Bytes
  | .schemaObjectName canonical | .columnName _ canonical | .constraintName _ canonical
  | .columnViewDependency _ _ canonical | .viewDependency _ canonical => [canonical]
  | _ => []

/-- The target with other names. -/
def mapNames (f : Bytes → Bytes) : Target → Target
  | .schemaObjectName canonical => .schemaObjectName (f canonical)
  | .columnName table canonical => .columnName table (f canonical)
  | .constraintName table canonical => .constraintName table (f canonical)
  | .columnViewDependency table column canonical => .columnViewDependency table column (f canonical)
  | .viewDependency table canonical => .viewDependency table (f canonical)
  | target => target

theorem components_mapNames (name : Bytes → Bytes) (t : Target) :
    t.components name = (mapNames name t).components id := by
  cases t <;> rfl

variable {f : Bytes → Bytes}

theorem fits_mapNames (h : Fits parts arity t) : Fits parts arity (mapNames f t) := by
  cases t <;> exact h

theorem mapNames_mapNames {g : Bytes → Bytes} (h : ∀ name ∈ writtenNames t, g (f name) = name) :
    mapNames g (mapNames f t) = t := by
  cases t <;> simp_all [writtenNames, mapNames]

theorem enclosing_mapNames (f : Bytes → Bytes) (u : Target) :
    (mapNames f u).enclosing = u.enclosing := by
  cases u <;> rfl

/-- Prefix targets have no names. -/
theorem mapNames_of_enclosing {t : Target} (h : mapNames f t ∈ u.enclosing) : mapNames f t = t := by
  cases t with
  | schemaObjectName | columnName | constraintName | columnViewDependency | viewDependency =>
    exfalso
    revert h
    cases u with
    | rowChange target => cases target <;> simp [Target.enclosing, mapNames]
    | _ => simp [Target.enclosing, mapNames]
  | _ => rfl

/-- Names are written apart when no two long ones have the same digest. -/
theorem nameComponent_injOn {names : Set Bytes}
    (hsha : Set.InjOn sha256 ((objectNameHashDomain ++ ·) '' names)) :
    Set.InjOn (nameComponent sha256) names := by
  have happart : ∀ a b : Bytes, ascii "name-" ++ a ≠ ascii "hash-" ++ b := by
    intro a b h
    have hhead := congrArg List.head? h
    revert hhead
    simp +decide [ascii]
  intro a ha b hb h
  unfold nameComponent at h
  split at h <;> split at h
  · exact append_cancel_left h
  · exact absurd h (happart _ _)
  · exact absurd h.symm (happart _ _)
  · have hdigest := ByteArr.ext (append_cancel_left h)
    exact append_cancel_left (hsha ⟨a, ha, rfl⟩ ⟨b, hb, rfl⟩ hdigest)

/-! ## Keys -/

variable {key : Key}

theorem bytes_of_keyFromBytes {components : List Bytes} (h : keyFromBytes components = .ok key) :
    key.components.map KeyComponent.bytes = components := by
  obtain ⟨cells, hcells, hkey⟩ := of_bind h
  have hkey : key.components = cells := by
    unfold Key.new at hkey
    split_ifs at hkey
    cases hkey
    rfl
  have hbytes : ∀ bytes cell, KeyComponent.new bytes = .ok cell → cell.bytes = bytes := by
    intro bytes cell hcell
    unfold KeyComponent.new at hcell
    split_ifs at hcell
    cases hcell
    rfl
  rw [hkey, map_of_mapM hbytes hcells, map_id']

/-- The key of a target is classified as its family. -/
theorem classify_components {name : Bytes → Bytes}
    (h : key.components.map KeyComponent.bytes = t.components name) :
    TargetFamily.classify key = some t.family := by
  unfold TargetFamily.classify
  rw [h]
  cases t with
  | rowChange target =>
    cases target <;> simp +decide [TargetFamily.classifyTable, Target.family, LogicalTarget.family]
  | _ => simp +decide [TargetFamily.classifyTable, Target.family]

/-- A key is properly extended by another if its components are followed by some component. -/
theorem extends_iff (key key' : Key) :
    (key.components <+: key'.components ∧ key ≠ key') ↔
      ∃ bytes rest, key'.components.map KeyComponent.bytes =
        key.components.map KeyComponent.bytes ++ bytes :: rest := by
  constructor
  · rintro ⟨⟨rest, hrest⟩, hne⟩
    cases rest with
    | nil =>
      rw [append_nil] at hrest
      exact absurd (Key.ext hrest) hne
    | cons cell rest =>
      refine ⟨cell.bytes, rest.map KeyComponent.bytes, ?_⟩
      rw [← hrest, map_append, map_cons]
  · rintro ⟨bytes, rest, h⟩
    obtain ⟨l, r, hkey, hl, hr⟩ := map_eq_append_iff.mp h
    cases map_injective_iff.mpr (fun _ _ => KeyComponent.ext) hl
    refine ⟨hkey ▸ prefix_append _ _, ?_⟩
    rintro rfl
    rw [self_eq_append_right.mp hkey] at hr
    cases hr

section Targets

variable {targets : Set Target}
  (hsha : Set.InjOn sha256
    ((objectNameHashDomain ++ ·) '' {name | ∃ t ∈ targets, name ∈ writtenNames t}))
  (hfits : ∀ t ∈ targets, Fits parts arity t) {t u : Target} (ht : t ∈ targets)
  (hu : u ∈ targets)

include hsha

/-- What is written for a name is read back to the name. -/
theorem mapNames_back :
    ∃ back, ∀ t ∈ targets, mapNames back (mapNames (nameComponent sha256) t) = t := by
  have hwritten := (nameComponent_injOn hsha).leftInvOn_invFunOn
  exact ⟨_, fun t ht => mapNames_mapNames fun name hname => hwritten ⟨t, ht, hname⟩⟩

include hfits ht hu

theorem components_separate
    (h : t.components (nameComponent sha256) = u.components (nameComponent sha256)) : t = u := by
  obtain ⟨back, hback⟩ := mapNames_back hsha
  rw [components_mapNames, components_mapNames _ u] at h
  have hread := readTarget_components (fits_mapNames (f := nameComponent sha256) (hfits t ht))
  rw [h, readTarget_components (fits_mapNames (hfits u hu))] at hread
  rw [← hback t ht, ← Option.some.inj hread, hback u hu]

omit hsha in
theorem components_nest :
    (∃ bytes rest, u.components (nameComponent sha256) =
      t.components (nameComponent sha256) ++ bytes :: rest) ↔ t ∈ u.enclosing := by
  refine ⟨?_, components_of_enclosing _⟩
  rintro ⟨bytes, rest, h⟩
  rw [components_mapNames, components_mapNames _ t] at h
  have hmember := enclosing_of_readTarget (fits_mapNames (hfits t ht)) bytes rest _
    (h ▸ readTarget_components (fits_mapNames (hfits u hu)))
  rw [enclosing_mapNames] at hmember
  exact mapNames_of_enclosing hmember ▸ hmember

end Targets

/-- Targets have their keys apart, a key tells the family of its target, and it extends the key of
another target if and only if the other is a prefix target that names this one: so a range
deletion or a guard at a prefix target covers the target itself and exactly its members.  The
digests of the names that occur are taken to be apart. -/
theorem targets_separate_and_nest (sha256 : Bytes → ByteArr 32) (parts : IndexId → Nat)
    (arity : ForeignKeyId → Nat) (targets : Set Target)
    (hsha : Set.InjOn sha256
      ((objectNameHashDomain ++ ·) '' {name | ∃ t ∈ targets, name ∈ writtenNames t}))
    (hfits : ∀ t ∈ targets, Fits parts arity t) (t u : Target) (ht : t ∈ targets)
    (hu : u ∈ targets) (key key' : Key) (hkey : t.render sha256 = .ok key)
    (hkey' : u.render sha256 = .ok key') :
    (key = key' → t = u) ∧ TargetFamily.classify key = some t.family ∧
      ((key.components <+: key'.components ∧ key ≠ key') ↔ t ∈ u.enclosing) ∧
      ((Range.prefixed key).coversKey key' = true ↔ u = t ∨ t ∈ u.enclosing) := by
  have hbytes := bytes_of_keyFromBytes hkey
  have hbytes' := bytes_of_keyFromBytes hkey'
  have hapart : key = key' → t = u := by
    intro h
    refine components_separate hsha hfits ht hu ?_
    rw [← hbytes, ← hbytes', h]
  have hnest : (key.components <+: key'.components ∧ key ≠ key') ↔ t ∈ u.enclosing := by
    rw [extends_iff, hbytes, hbytes']
    exact components_nest hfits ht hu
  refine ⟨hapart, classify_components hbytes, hnest, ?_⟩
  rw [Range.coversKey, Key.startsWith_iff, ← hnest]
  by_cases h : key = key'
  · simp [h, hapart h]
  · have hne : u ≠ t := by
      rintro rfl
      exact h (Except.ok.inj (hkey.symm.trans hkey'))
    simp [h, hne]

/-- The rows of a table and one of them, and a column whose name is written out. -/
def sampleTargets : List Target :=
  [.rowPrefix (ByteArr.zero 16), .rowChange (.row (ByteArr.zero 16) (ByteArr.filled 16 1) [[7]]),
    .columnName (ByteArr.zero 16) [97]]

theorem targets_separate_and_nest_rows :
    ∃ key key', (Target.rowPrefix (ByteArr.zero 16)).render (fun _ => ByteArr.zero 32) = .ok key ∧
      (Target.rowChange (.row (ByteArr.zero 16) (ByteArr.filled 16 1) [[7]])).render
        (fun _ => ByteArr.zero 32) = .ok key' ∧
      TargetFamily.classify key = some .tableRows ∧ (Range.prefixed key).coversKey key' = true := by
  have hrender : ∀ t ∈ sampleTargets, (t.render fun _ => ByteArr.zero 32).isOk = true := by
    decide +kernel
  have hkey : ∀ t ∈ sampleTargets, ∃ key, t.render (fun _ => ByteArr.zero 32) = .ok key := by
    intro t ht
    have h := hrender t ht
    cases hkey : t.render fun _ => ByteArr.zero 32 with
    | ok key => exact ⟨key, rfl⟩
    | error e =>
      rw [hkey] at h
      cases h
  obtain ⟨key, hkey₁⟩ := hkey (.rowPrefix (ByteArr.zero 16)) (by decide)
  obtain ⟨key', hkey₂⟩ :=
    hkey (.rowChange (.row (ByteArr.zero 16) (ByteArr.filled 16 1) [[7]])) (by decide)
  obtain ⟨-, hfamily, -, hcovers⟩ := targets_separate_and_nest (fun _ => ByteArr.zero 32)
    (fun _ => 1) (fun _ => 1) {t | t ∈ sampleTargets} (by simp [sampleTargets, writtenNames])
    (by simp [sampleTargets, Fits]) _ _ (by simp [sampleTargets]) (by simp [sampleTargets]) key key'
    hkey₁ hkey₂
  exact ⟨key, key', hkey₁, hkey₂, hfamily, hcovers.mpr (Or.inr (by decide))⟩

end Homebase.Properties
