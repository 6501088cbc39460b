import PgDelta.Sink.Table

/-!
The locations of tables. A name is accepted for what it is made of: the filter
on the characters of a component keeps a table's directory below the output
prefix, and makes both of the ways in which a name is rendered, as a path and
with a dot, tell the accepted names apart.
-/

namespace PgDelta.Sink

open PgDelta.Lib PgDelta.Scan

variable {P : Platform}

/-! ### Joined texts -/

theorem intercalate_inj {sep : Char} {xs ys : List Text} (hxs : ∀ x ∈ xs, sep ∉ x)
    (hys : ∀ y ∈ ys, sep ∉ y) (hx : xs ≠ []) (hy : ys ≠ [])
    (h : [sep].intercalate xs = [sep].intercalate ys) : xs = ys := by
  rw [← List.splitOn_intercalate sep hxs hx, ← List.splitOn_intercalate sep hys hy, h]

theorem intercalate_append {sep : Char} {xs ys : List Text} (hx : xs ≠ []) (hy : ys ≠ []) :
    [sep].intercalate (xs ++ ys) = [sep].intercalate xs ++ sep :: [sep].intercalate ys := by
  induction xs with
  | nil => exact absurd rfl hx
  | cons x xs ih =>
      cases xs with
      | nil => rw [List.singleton_append, List.intercalate_cons_of_ne_nil hy]; simp
      | cons x' xs =>
          rw [List.cons_append, List.cons_append, List.intercalate_cons_cons, ← List.cons_append,
            ih (by simp), List.intercalate_cons_cons]
          simp

/-- A joined text is the beginning of another one, up to a separator or the
end, as the texts are those that the other one begins with. -/
theorem intercalate_prefix_iff {sep : Char} {xs ys : List Text} (hxs : ∀ x ∈ xs, sep ∉ x)
    (hys : ∀ y ∈ ys, sep ∉ y) (hx : xs ≠ []) (hy : ys ≠ []) :
    ([sep].intercalate xs = [sep].intercalate ys ∨
        [sep].intercalate ys ++ [sep] <+: [sep].intercalate xs) ↔ ys <+: xs := by
  constructor
  · rintro (heq | ⟨t, ht⟩)
    · rw [intercalate_inj hxs hys hx hy heq]
    · have hsplit := congrArg (List.splitOn sep) ht
      rw [List.append_assoc, List.singleton_append, List.splitOn_append_cons_self,
        List.splitOn_intercalate sep hys hy, List.splitOn_intercalate sep hxs hx] at hsplit
      exact ⟨_, hsplit⟩
  · rintro ⟨zs, rfl⟩
    by_cases hz : zs = []
    · exact Or.inl (by rw [hz, List.append_nil])
    · refine Or.inr ⟨[sep].intercalate zs, ?_⟩
      rw [intercalate_append hy hz]
      simp

theorem nameParts_ne_nil (name : TableName) : nameParts name ≠ [] := by
  simp [nameParts]

theorem length_nameParts (name : TableName) :
    (nameParts name).length = 1 ∨ (nameParts name).length = 2 := by
  cases h : name.schema with
  | none => exact Or.inl (by simp [nameParts, h])
  | some schema => exact Or.inr (by simp [nameParts, h])

theorem nameParts_inj {a b : TableName} (h : nameParts a = nameParts b) : a = b := by
  obtain ⟨schema, table⟩ := a
  obtain ⟨schema', table'⟩ := b
  cases schema <;> cases schema' <;> simp_all [nameParts, String.toList_inj]

theorem toList_qualified (name : TableName) :
    name.qualified.toList = ['.'].intercalate (nameParts name) := by
  unfold TableName.qualified
  cases h : name.schema with
  | none => simp [nameParts, h]
  | some schema => simp [nameParts, h, List.intercalate_cons_cons]

/-! ### Accepted names -/

/-- A component of a path that names an entry of the directory it is in. -/
structure PlainComponent (component : Text) : Prop where
  ne_nil : component ≠ []
  ne_here : component ≠ ['.']
  ne_parent : component ≠ ['.', '.']
  chars : ∀ c ∈ component, c ≠ '/' ∧ c ≠ '\\' ∧ c ≠ '.' ∧ isControl c = false

/-- A path of one or two such components. -/
def Contained (path : String) : Prop :=
  ∃ parts : List Text, path = String.ofList (['/'].intercalate parts) ∧
    (parts.length = 1 ∨ parts.length = 2) ∧ ∀ part ∈ parts, PlainComponent part

/-- An accepted component has none of the characters that mean something in a
path: of the punctuation of ASCII, a letter or digit is none. -/
theorem safeComponent_plain {component : Text} (h : safeComponent P component = true) :
    PlainComponent component := by
  simp only [safeComponent, Bool.and_eq_true, List.all_eq_true, Bool.not_eq_true',
    List.any_eq_false] at h
  obtain ⟨⟨⟨⟨⟨hne, -⟩, -⟩, -⟩, hsafe⟩, hcontrol⟩ := h
  have hnot : ∀ c ∈ component, ∀ d : Char, d.toNat < 128 → d.isAlphanum = false →
      (d == '_' || d == '-' || d == ' ') = false → c ≠ d := by
    rintro c hc d hascii halpha hother rfl
    have hsafe := hsafe c hc
    rw [P.isAlphanumeric_ascii c hascii, halpha] at hsafe
    simp_all
  have hdot : ∀ c ∈ component, c ≠ '.' := fun c hc =>
    hnot c hc '.' (by decide) (by decide) (by decide)
  refine ⟨by simpa using hne, ?_, ?_, fun c hc => ⟨?_, ?_, hdot c hc, by simpa using hcontrol c hc⟩⟩
  · rintro rfl
    exact hdot '.' (by simp) rfl
  · rintro rfl
    exact hdot '.' (by simp) rfl
  · exact hnot c hc '/' (by decide) (by decide) (by decide)
  · exact hnot c hc '\\' (by decide) (by decide) (by decide)

theorem relativePath_spec {name : TableName} {path : String}
    (h : relativePath P name = .ok path) :
    path.toList = ['/'].intercalate (nameParts name) ∧
      ∀ part ∈ nameParts name, PlainComponent part := by
  unfold relativePath at h
  dsimp only at h
  split at h
  · next hsafe =>
      rw [← Except.ok.inj h, String.toList_ofList]
      exact ⟨rfl, fun part hpart => safeComponent_plain (List.all_eq_true.mp hsafe.1 part hpart)⟩
  · cases h

section Accepted

variable {a b : TableName} {p q : String}

theorem relativePath_contained (ha : relativePath P a = .ok p) : Contained p := by
  obtain ⟨hpath, hparts⟩ := relativePath_spec ha
  exact ⟨nameParts a, by rw [← hpath, String.ofList_toList], length_nameParts a, hparts⟩

/-- Texts that join the parts of accepted names with a character that no part
has are those of the names. -/
theorem eq_of_intercalate (ha : relativePath P a = .ok p) (hb : relativePath P b = .ok q)
    {sep : Char} (hsep : ∀ part, PlainComponent part → sep ∉ part)
    (h : [sep].intercalate (nameParts a) = [sep].intercalate (nameParts b)) : a = b :=
  nameParts_inj (intercalate_inj (fun part hpart => hsep part ((relativePath_spec ha).2 part hpart))
    (fun part hpart => hsep part ((relativePath_spec hb).2 part hpart)) (nameParts_ne_nil a)
    (nameParts_ne_nil b) h)

/-- Accepted names have paths that stay below the output prefix, and neither
two paths nor two renderings with a dot are the same. -/
theorem relative_path_unambiguous (ha : relativePath P a = .ok p)
    (hb : relativePath P b = .ok q) :
    (Contained p ∧ Contained q) ∧ (p = q → a = b) ∧ (a.qualified = b.qualified → a = b) := by
  refine ⟨⟨relativePath_contained ha, relativePath_contained hb⟩, ?_, ?_⟩
  · intro h
    apply eq_of_intercalate ha hb (fun part hpart hmem => (hpart.chars _ hmem).1 rfl)
    rw [← (relativePath_spec ha).1, ← (relativePath_spec hb).1, h]
  · intro h
    apply eq_of_intercalate ha hb (fun part hpart hmem => (hpart.chars _ hmem).2.2.1 rfl)
    rw [← toList_qualified, ← toList_qualified, h]

end Accepted

theorem relative_path_unambiguous_users :
    (Contained "public/users" ∧ Contained "users") ∧
      ("public/users" = "users" → (⟨some "public", "users"⟩ : TableName) = ⟨none, "users"⟩) ∧
      ((⟨some "public", "users"⟩ : TableName).qualified = (⟨none, "users"⟩ : TableName).qualified →
        (⟨some "public", "users"⟩ : TableName) = ⟨none, "users"⟩) :=
  @relative_path_unambiguous .plain ⟨some "public", "users"⟩ ⟨none, "users"⟩ "public/users" "users"
    (by decide +kernel) (by decide +kernel)

end PgDelta.Sink
