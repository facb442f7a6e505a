import AvroDerive.Proofs.KeywordType
import AvroDerive.Proofs.NeutralRun
import AvroDerive.Proofs.RecordParallel
import AvroDerive.Proofs.SchemaKeyword

/-! # Nodes in parallel runs

If every node that a definition visits fits, two conversions of it give the same type as long as the
references in it do. Where the states differ, in the registry and in the records around the
definition, no node looks. -/
namespace AvroDerive.Convert

open AvroType Json Schema

section Naming

variable {c : Comparison} {v : View} {document : Json} {site : Site} {scope : Scope} {depth : Nat}
  {o : Object} {t : AvroType}

theorem Apart.of_unnamed {home : Bool} (h : t.name? = none) : Apart v home t := by
  intro name hname
  simp [h] at hname

theorem Apart.mono {home home' : Bool} (hh : home = true → home' = true) (h : Apart v home t) :
    Apart v home' t := by
  intro name hname
  exact (h name hname).imp_right (And.imp_left hh)

theorem name_of_named (h : t.isNamed = true) : ∃ name, t.name? = some name := by
  cases t with
  | record r => exact ⟨_, rfl⟩
  | enum e => exact ⟨_, rfl⟩
  | fixed f => exact ⟨_, rfl⟩
  | _ => simp [isNamed] at h

theorem named_of_name {name : String} (h : t.name? = some name) : t.isNamed = true := by
  cases t with
  | record r => rfl
  | enum e => rfl
  | fixed f => rfl
  | _ => simp [name?] at h

/-- What naming a type leaves of its name and its namespace. -/
theorem name_type_parts (o : Object) (scope : Scope) (h : t.isNamed = true) :
    (nameType o scope t).ns? = some (t.ns?.getD scope.typeNs) ∧
      (nameType o scope t).name? = if t.isEnum = true ∧ scope.field = "" then
        some (Name.ofText scope.localName) else t.name? := by
  cases t with
  | record r =>
    cases hd : description? o <;> cases hn : r.ns <;>
      simp [nameType, hd, hn, isNamed, isEnum, withDocIfMissing, ns?, name?, withNs]
  | enum e =>
    cases hd : description? o <;> cases hn : e.ns <;> by_cases hf : scope.field = "" <;>
      simp [nameType, hd, hn, hf, isNamed, isEnum, withDocIfMissing, ns?, name?, withNs, withName]
  | fixed f =>
    cases hd : description? o <;> cases hn : f.ns <;>
      simp [nameType, hd, hn, isNamed, isEnum, withDocIfMissing, ns?, name?, withNs]
  | _ => simp [isNamed] at h

/-- A type that is named apart already, or will be once it gets its namespace. -/
def Nameable (v : View) (site : Site) (scope : Scope) (t : AvroType) : Prop :=
  ∀ name, t.name? = some name → Apart v site.home t ∨
    (t.ns? = none ∨ t.ns? = some scope.typeNs) ∧
      (site.field = "" → site.home = true ∧ (t.isEnum = true ∨ name = v.name))

theorem Nameable.of_unnamed (h : t.isNamed = false) : Nameable v site scope t := by
  intro name hname
  simp [named_of_name hname] at h

theorem Nameable.apart (hlegal : Name.ofText v.name = v.name)
    (hs : AtSite c v document site scope depth) (h : Nameable v site scope t) :
    Apart v site.home (nameType o scope t) := by
  by_cases hnamed : t.isNamed = true
  · obtain ⟨own, hown⟩ := name_of_named hnamed
    obtain ⟨hns, hname⟩ := name_type_parts o scope hnamed
    intro name hn
    rw [hname] at hn
    have home_name : site.home = true → own = v.name ∨ t.isEnum = true → name = v.name := by
      intro hhome hor
      obtain ⟨-, hrecord, hfield, -⟩ := hs.home hhome
      split at hn
      · rw [← Option.some.inj hn, hs.local_name, Site.localName, if_pos hfield, hrecord, hlegal]
      · next hno =>
        rw [hown] at hn
        rw [← Option.some.inj hn]
        refine hor.resolve_right fun henum => hno ⟨henum, ?_⟩
        rw [hs.field, hfield]
    rcases h own hown with hapart | ⟨hnone, hhome⟩
    · rcases hapart own hown with ⟨ns, hns', hlong⟩ | ⟨hhome, hv, hns'⟩
      · exact Or.inl ⟨ns, by rw [hns, hns', Option.getD_some], hlong⟩
      · refine Or.inr ⟨hhome, home_name hhome (Or.inl hv), ?_⟩
        rw [hns, hns', Option.getD_some]
    · have typed : (nameType o scope t).ns? = some scope.typeNs := by
        rcases hnone with h | h
        · rw [hns, h, Option.getD_none]
        · rw [hns, h, Option.getD_some]
      by_cases hf : site.field = ""
      · obtain ⟨hh, hor⟩ := hhome hf
        refine Or.inr ⟨hh, home_name hh hor.symm, ?_⟩
        rw [typed, Scope.typeNs, if_pos (hs.field.trans hf), (hs.home hh).2.2.2]
      · exact Or.inl ⟨_, typed, hs.field_ns hf⟩
  · rw [name_type_unnamed o (by simpa using hnamed)]
    refine .of_unnamed ?_
    cases hn : t.name? with
    | none => rfl
    | some name => exact absurd (named_of_name hn) hnamed

end Naming

section Keywords

variable {c : Comparison} {v : View} {document : Json} {levels : Nat} {site : Site} {scope : Scope}
  {depth : Nat} {frames : Frames} {node node' : NodeConverter}

theorem primitive_alike (hs : AtSite c v document site scope depth) (format : Option String)
    (values : Option (List Json)) (type : Json) :
    BuildsAlike c frames (primitive scope format values type)
      (primitive (scope.moved document depth) format values type) fun t u _ =>
        t = u ∧ t = (primitiveType site.localName format values type).1 := by
  unfold primitive
  refine .bind_same (.modify _ _) fun _ => ?_
  refine .pure fun _ => ⟨rfl, ?_⟩
  rw [hs.local_name]

theorem alternative_types_alike (h : NodesAlike c v document levels node node')
    (hs : AtSite c v document site scope depth) (candidates : List Json) (n : Nat)
    (hfit : AllFit v document levels (alternativeVisits site n candidates)) :
    BuildsAlike c frames (alternativeTypes node scope n candidates)
      (alternativeTypes node' (scope.moved document depth) n candidates) fun ts us _ =>
        ts = us ∧ ∀ t ∈ ts, Apart v site.home t := by
  induction candidates generalizing n with
  | nil =>
    simp only [alternativeTypes]
    exact .pure fun _ => ⟨rfl, by simp⟩
  | cons candidate candidates ih =>
    rw [AllFit, alternativeVisits, List.forall_mem_cons] at hfit
    obtain ⟨hcandidate, hrest⟩ := hfit
    simp only [alternativeTypes]
    have rest := ih (n + 1) hrest
    have local_name : (scope.moved document depth).localName = site.localName := hs.local_name
    rw [hs.local_name, local_name]
    refine .bind (h.post (hs.for_field _) (by simp) hcandidate) ?_ ?_
    · exact fun he _ _ _ _ _ _ => (rest.logs he).bind fun _ => .pure _
    · rintro t _ ⟨rfl, ht⟩
      refine .bind (m := fun ts us => ts = us ∧ ∀ t ∈ ts, Apart v site.home t) rest
        (fun _ _ _ _ _ _ _ => .pure _) ?_
      rintro ts _ ⟨rfl, hts⟩
      refine .pure fun _ => ⟨rfl, List.forall_mem_append.mpr ⟨?_, hts⟩⟩
      intro u hu
      obtain ⟨hu, -⟩ := Option.filter_eq_some_iff.mp (Option.mem_toList.mp hu)
      exact (ht u hu).mono (by simp)

theorem NodePost.useful {t u : Option AvroType} {home : Bool} (h : NodePost v home t u) :
    NodePost v home (some (usefulOrGeneric t)) (some (usefulOrGeneric u)) := by
  obtain ⟨rfl, ht⟩ := h
  refine ⟨rfl, ?_⟩
  rintro _ ⟨⟩
  exact useful_or_generic (.of_unnamed rfl) ht

theorem candidates_type_alike (h : NodesAlike c v document levels node node')
    (hs : AtSite c v document site scope depth) (hhome : site.home = true → frames = [])
    (keepEmpty : Bool) (candidates : List Json)
    (hfit : AllFit v document levels (candidateVisits site candidates)) :
    BuildsAlike c frames (candidatesType node keepEmpty scope candidates)
      (candidatesType node' keepEmpty (scope.moved document depth) candidates) fun t u _ =>
        NodePost v site.home t u := by
  unfold candidatesType
  split
  · next candidate =>
    rw [AllFit, candidateVisits, List.forall_mem_singleton] at hfit
    refine .bind (h.post hs.deeper hhome hfit) (fun _ _ _ _ _ _ _ => .pure _) ?_
    intro t u hp
    refine .pure fun _ => ?_
    split
    · exact hp
    · exact hp.useful
  · next hmany =>
    have hvisits : candidateVisits site candidates = alternativeVisits site 0 candidates :=
      candidateVisits.eq_2 site candidates hmany
    rw [hvisits] at hfit
    refine .bind (alternative_types_alike h hs candidates 0 hfit) ?_ ?_
    · intro _ _ _ ts _ _ _
      split
      · exact .pure _
      · exact .pure _
      · exact .pure _
    · rintro ts _ ⟨rfl, hts⟩
      split
      · exact .pure fun _ => ⟨rfl, by simp⟩
      · next t =>
        refine .pure fun _ => ⟨rfl, ?_⟩
        rintro _ ⟨⟩
        exact hts t (List.mem_singleton_self t)
      · refine .pure fun _ => ⟨rfl, ?_⟩
        rintro _ ⟨⟩
        exact .of_unnamed rfl

/-- What the keywords of a schema give in two runs. -/
def KeywordPost (v : View) (site : Site) (scope : Scope) (t u : Option AvroType) : Prop :=
  t = u ∧ ∀ t', t = some t' → Nameable v site scope t'

theorem NodePost.nameable {t u : Option AvroType} (h : NodePost v site.home t u) :
    KeywordPost v site scope t u :=
  ⟨h.1, fun t' ht _ _ => Or.inl (h.2 t' ht)⟩

theorem KeywordPost.of_unnamed {t : AvroType} (h : t.isNamed = false) :
    KeywordPost v site scope (some t) (some t) := by
  refine ⟨rfl, ?_⟩
  rintro _ ⟨⟩
  exact .of_unnamed h

/-- A type without a namespace gets one, unless it is to be named after the definition. -/
theorem KeywordPost.of_bare {t : AvroType} (hns : t.ns? = none)
    (h : site.field = "" → isHomely site t = true) :
    KeywordPost v site scope (some t) (some t) := by
  refine ⟨rfl, ?_⟩
  rintro _ ⟨⟩ name hname
  refine Or.inr ⟨Or.inl hns, fun hf => ?_⟩
  have homely := h hf
  simp only [isHomely, named_of_name hname, Bool.not_true, Bool.false_or,
    Bool.and_eq_true] at homely
  exact ⟨homely.1, Or.inl homely.2⟩

/-- A constant that is a text gives an enumeration, which has to be at home where it is not a field. -/
theorem constant_post {value : Json}
    (h : ∀ text, value = .str text → site.field = "" → site.home = true) :
    KeywordPost v site scope (some (constantType scope value)) (some (constantType scope value)) := by
  cases value with
  | str text =>
    refine .of_bare rfl fun hf => ?_
    simpa [isHomely, constantType, isNamed, isEnum] using h text rfl hf
  | num n =>
    cases n with
    | int n => exact .of_unnamed rfl
    | float bits => exact .of_unnamed rfl
  | _ => exact .of_unnamed rfl

theorem listed_type_alike (h : NodesAlike c v document levels node node')
    (hs : AtSite c v document site scope depth) (hhome : site.home = true → frames = [])
    {types : List Json} {o : Object}
    (hfit : types.any isStructured = true → AllFit v document levels (candidateVisits site
      ((types.filter (!isNullName ·)).map fun type => .obj (Object.insert o "type" type))))
    (hhomely : site.field = "" → isHomely site
      (primitiveType site.localName ((Object.get? o "format").bind Json.asString?)
        ((Object.get? o "enum").bind Json.asArray?) (.arr types)).1 = true) :
    BuildsAlike c frames (listedType node types o scope)
      (listedType node' types o (scope.moved document depth)) fun t u _ =>
        KeywordPost v site scope t u := by
  unfold listedType
  split
  · next hstructured =>
    have hfit := hfit hstructured
    have finish : ∀ t u : Option AvroType, NodePost v site.home t u →
        BuildsAlike c frames (if types.any isNullName = true then
            pure (t.map fun t => AvroType.unionOf [.null, t]) else pure t)
          (if types.any isNullName = true then
            pure (u.map fun t => AvroType.unionOf [.null, t]) else pure u)
          fun t u _ => KeywordPost v site scope t u := by
      rintro t _ ⟨rfl, ht⟩
      split
      · refine .pure fun _ => ⟨rfl, fun u hu => ?_⟩
        obtain ⟨t', -, rfl⟩ := Option.map_eq_some_iff.mp hu
        exact .of_unnamed (union_of_null t')
      · exact .pure fun _ => NodePost.nameable ⟨rfl, ht⟩
    dsimp only
    split
    · next single hsingle =>
      rw [hsingle, List.map_singleton, candidateVisits, AllFit, List.forall_mem_singleton] at hfit
      refine .bind (h.post hs.deeper hhome hfit) ?_ finish
      intro _ _ _ t _ _ _
      split
      · exact .pure _
      · exact .pure _
    · refine .bind (candidates_type_alike h hs hhome false _ hfit) ?_ finish
      intro _ _ _ t _ _ _
      split
      · exact .pure _
      · exact .pure _
  · refine .bind (primitive_alike hs _ _ _) (fun _ _ _ _ _ _ _ => .pure _) ?_
    rintro t _ ⟨rfl, rfl⟩
    exact .pure fun _ => .of_bare (primitive_type_of_keyword _ _ _).ns hhomely

theorem tuple_types_alike (h : NodesAlike c v document levels node node')
    (hs : AtSite c v document site scope depth) (items : List Json)
    (hfit : AllFit v document levels (items.map fun item => ({ site with home := false }, item))) :
    BuildsAlike c frames (tupleTypes node scope items)
      (tupleTypes node' (scope.moved document depth) items) fun ts us _ => ts = us := by
  induction items with
  | nil =>
    simp only [tupleTypes]
    exact .pure fun _ => rfl
  | cons item items ih =>
    rw [AllFit, List.map_cons, List.forall_mem_cons] at hfit
    simp only [tupleTypes]
    refine .bind_same ((h.post hs.away (by simp) hfit.1).imp fun _ _ _ hp => hp.1) fun t => ?_
    refine .bind_same (ih hfit.2) fun ts => ?_
    exact .pure fun _ => rfl

theorem array_type_alike (h : NodesAlike c v document levels node node')
    (hs : AtSite c v document site scope depth) {o : Object}
    (hfit : AllFit v document levels (itemVisits site o)) :
    BuildsAlike c frames (arrayType node o scope) (arrayType node' o (scope.moved document depth))
      fun t u _ => t = u ∧ t.isNamed = false := by
  unfold arrayType
  unfold itemVisits at hfit
  split
  · next tuple hi =>
    rw [hi] at hfit
    refine .bind_same (tuple_types_alike h hs.deeper tuple hfit) fun ts => ?_
    split
    · exact .pure fun _ => ⟨rfl, rfl⟩
    · exact .pure fun _ => ⟨rfl, rfl⟩
  · next items harr hi =>
    have hitems : fitsWithin v document levels { site with home := false } items = true := by
      rw [hi] at hfit
      cases items with
      | arr tuple => exact (harr tuple rfl).elim
      | _ => exact hfit _ (List.mem_singleton_self _)
    refine .bind_same ((h.post hs.deeper.away (by simp) hitems).imp fun _ _ _ hp => hp.1) fun t => ?_
    exact .pure fun _ => ⟨rfl, rfl⟩
  · exact .pure fun _ => ⟨rfl, rfl⟩

theorem inline_record_alike (h : NodesAlike c v document levels node node') (hc : Faithful c v)
    (hs : AtSite c v document site scope depth) (hhome : site.home = true → frames = [])
    {o : Object} (hplain : hasComposition (unconditional o) = false)
    (hname : Name.ofText site.localName ∈ v.records) (hfield : site.field = "" → site.home = true)
    (hfit : AllFit v document levels
      (recordVisits (Name.ofText site.localName) (unconditional o))) :
    BuildsAlike c frames (inlineRecord node o scope)
      (inlineRecord node' o (scope.moved document depth)) fun t u _ =>
        KeywordPost v site scope t u := by
  have made := object_record_alike frames h hc hs hs.type_ns hplain hname hfit
  unfold inlineRecord
  rw [← hs.local_name] at made
  refine .bind (.lift made) ?_ ?_
  · intro _ _ _ t _ _ _
    split
    · exact .bind (Build.logs_modify _) fun _ => .pure _
    · exact .pure _
  · rintro t u ⟨hsame, hparts⟩
    cases t with
    | none =>
      cases u with
      | none => exact .pure fun _ => ⟨rfl, by simp⟩
      | some u => simp [SameType] at hsame
    | some t =>
      cases u with
      | none => simp [SameType] at hsame
      | some u =>
        have hclear : t.clearDependencies = u.clearDependencies := Option.some.inj hsame
        refine .bind_same (.modify _ _) fun _ => .pure fun _ => ⟨by rw [hclear], ?_⟩
        rintro _ ⟨⟩ name hn
        obtain ⟨hrecord, hns, hown⟩ := hparts t rfl
        rw [clear_name] at hn
        refine Or.inr ⟨?_, fun hf => ⟨hfield hf, Or.inr ?_⟩⟩
        · rw [clear_ns, hns]
          split
          · exact Or.inl rfl
          · exact Or.inr rfl
        · have hh := hfield hf
          rw [hown (hhome hh), hs.local_name, Site.localName, if_pos hf, (hs.home hh).2.1,
            hc.legal] at hn
          exact (Option.some.inj hn).symm

theorem keyword_type_alike (h : NodesAlike c v document levels node node') (hc : Faithful c v)
    (hs : AtSite c v document site scope depth) (hhome : site.home = true → frames = [])
    {o : Object} (hplain : hasComposition (unconditional o) = false)
    (hkeywords : keywordFits v site o = true)
    (hfit : AllFit v document levels (keywordVisits site o)) :
    BuildsAlike c frames (keywordType node o scope)
      (keywordType node' o (scope.moved document depth)) fun t u _ =>
        KeywordPost v site scope t u := by
  simp only [keywordFits, Bool.and_eq_true, Bool.or_eq_true, decide_eq_true_eq] at hkeywords
  obtain ⟨hrecord, hhomely⟩ := hkeywords
  have homely : site.field = "" → isHomely site (primitiveType site.localName
      ((Object.get? o "format").bind Json.asString?) ((Object.get? o "enum").bind Json.asArray?)
      ((Object.get? o "type").getD (.str "string"))).1 = true :=
    fun hf => (hhomely.resolve_left (by simp [hf])).2
  have wrapped : ∀ {x y : Build AvroType} {p : AvroType → AvroType → State → Prop},
      BuildsAlike c frames x y p →
      (∀ t u r, p t u r → KeywordPost v site scope (some t) (some u)) →
      BuildsAlike c frames (do return some (← x)) (do return some (← y)) fun t u _ =>
        KeywordPost v site scope t u := by
    intro x y p hxy hp
    refine .bind (hxy.imp hp) (fun _ _ _ _ _ _ _ => .pure _) ?_
    exact fun t u htu => .pure fun _ => htu
  obtain ⟨k, hk⟩ := said o
  rw [hk.type_eq, hk.type_eq]
  cases k with
  | constant value =>
    refine .pure fun _ => constant_post fun text hvalue hf => ?_
    cases hk with
    | constant hconst =>
      subst hvalue
      have hhome := (hhomely.resolve_left (by simp [hf])).1.2
      rw [hconst] at hhome
      simpa [asString?] using hhome
  | listed types =>
    cases hk with
    | listed hconst htypes =>
      rw [keywordVisits, hconst, htypes] at hfit
      rw [htypes] at homely
      refine listed_type_alike h hs hhome (fun hstructured => ?_) homely
      simpa only [if_pos hstructured] using hfit
  | array =>
    have items : AllFit v document levels (itemVisits site o) := by
      cases hk with
      | array hconst htype => simpa only [keywordVisits, hconst, htype, if_true] using hfit
      | items hconst htype => simpa only [keywordVisits, hconst, htype] using hfit
    refine wrapped (array_type_alike h hs items) ?_
    rintro t _ _ ⟨rfl, ht⟩
    exact .of_unnamed ht
  | object =>
    cases hk with
    | object hconst htype =>
      rw [htype] at hrecord hhomely
      refine inline_record_alike h hc hs hhome hplain ?_ ?_ ?_
      · simpa [asString?] using hrecord
      · intro hf
        simpa [hf, asString?] using (hhomely.resolve_left (by simp [hf])).1.1
      · simpa [keywordVisits, hconst, htype] using hfit
  | named type =>
    rw [hk.named_type] at homely
    refine wrapped (primitive_alike hs _ _ type) ?_
    rintro t _ _ ⟨rfl, rfl⟩
    exact .of_bare (primitive_type_of_keyword _ _ _).ns homely
  | silent => exact .pure fun _ => ⟨rfl, by simp⟩

end Keywords

section Steps

variable {c : Comparison} {v : View} {document : Json} {levels : Nat} {site : Site} {scope : Scope}
  {depth : Nat} {frames : Frames} {node node' : NodeConverter} {cfg : Setting}

/-- Two converters treat the references that fit alike. -/
def ReferencesAlike (cfg : Setting) (c : Comparison) (v : View) (document : Json)
    (node node' : NodeConverter) : Prop :=
  ∀ frames site o scope depth, AtSite c v document site scope depth → referenceFits v o = true →
    BuildsAlike c frames (referenceType cfg node o scope)
      (referenceType cfg node' o (scope.moved document depth)) fun t u s => t = u ∧
        (∀ t', t = some t' → t'.isNamed = false) ∧ ∀ name, t = some (.reference name) → c.known s name

/-- A named type that the registry does not know stays. -/
theorem unregistered_stays {t : AvroType} {name : String} (hname : t.name? = some name)
    (names : List String) {s : State} (hnone : Registry.find? s.registry name t.ns? = none) :
    (reuseRegistered t).Yields names s t names s := by
  unfold reuseRegistered
  rw [hname]
  refine Build.yields_bind.mpr ⟨s, names, s, Build.yields_getThe.mpr ⟨rfl, rfl, rfl⟩, ?_⟩
  rw [hnone]
  exact Build.yields_pure.mpr ⟨rfl, rfl, rfl⟩

/-- A type that is named apart is not found in the registry. -/
theorem reuse_registered_alike (hc : Faithful c v) {t : AvroType} (ht : Apart v v.named t) :
    BuildsAlike c frames (reuseRegistered t) (reuseRegistered t) fun a b _ => a = t ∧ b = t := by
  cases hname : t.name? with
  | some name =>
    intro names names'
    refine ⟨fun _ => (neutral_reuse_registered t).logs names, fun s s' hr _ => ?_⟩
    obtain ⟨hnone, hnone'⟩ := hc.unused hr ht hname
    exact ⟨(t, names), (t, names'), s, s', unregistered_stays hname names hnone,
      unregistered_stays hname names' hnone', hr, rfl, rfl⟩
  | none =>
    have same : reuseRegistered t = Pure.pure t := by
      unfold reuseRegistered
      rw [hname]
    rw [same]
    exact .pure fun _ => ⟨rfl, rfl⟩

theorem dereference_same {d d' : Json} (hsame : ∀ reference, v.refers reference = true →
    localFragment? d reference = localFragment? d' reference) {member : Json}
    (h : memberFits v member = true) : dereference d member = dereference d' member := by
  cases member with
  | obj o =>
    simp only [dereference]
    split
    · next reference href =>
      simp only [memberFits, href, Option.all_some] at h
      rw [hsame reference h]
    · rfl
  | _ => rfl

theorem dereference_all_same {d d' : Json} (hsame : ∀ reference, v.refers reference = true →
    localFragment? d reference = localFragment? d' reference) {members : List Json}
    (h : members.all (memberFits v) = true) :
    dereferenceAll d members = dereferenceAll d' members := by
  have same : members.map (dereference d) = members.map (dereference d') :=
    List.map_congr_left fun m hm => dereference_same hsame (List.all_eq_true.mp h m hm)
  rw [dereferenceAll, dereferenceAll, same]

/-- A composition has the same candidates in documents where its references lead to the same. -/
theorem expand_same {d d' : Json} (hsame : ∀ reference, v.refers reference = true →
    localFragment? d reference = localFragment? d' reference) {o : Object}
    (h : membersFit v o = true) : expand d o = expand d' o := by
  simp only [membersFit, Bool.and_eq_true] at h
  have all : ∀ base, afterAll d base o = afterAll d' base o := by
    intro base
    unfold afterAll
    split
    · next members hm =>
      have hmembers : members.all (memberFits v) = true := by
        rw [hm] at h
        exact h.1
      rw [expandAll, expandAll, dereference_all_same hsame hmembers]
    · rfl
  simp only [expand, all]
  split
  · next branches hb =>
    have hbranches : branches.all (memberFits v) = true := by
      rw [hb] at h
      exact h.2
    simp only [expandAny, dereference_all_same hsame hbranches]
  · rfl

theorem unconditional_builds_alike {β γ : Type} (hc : Faithful c v) {o : Object}
    {f : Object → Build β} {g : Object → Build γ} {post : β → γ → State → Prop}
    (h : BuildsAlike c frames (f (unconditional o)) (g (unconditional o)) post) :
    BuildsAlike c frames (do f (← withoutConditionals o)) (do g (← withoutConditionals o)) post := by
  refine .bind (.lift (without_conditionals_alike hc o)) ?_ ?_
  · intro he names s o' names' t hy
    rw [(without_conditionals_yields (Build.yields_lift.mp hy).1).1]
    exact h.logs he
  · rintro _ _ ⟨rfl, rfl⟩
    exact h

/-- Types that are not named are apart. -/
theorem NodePost.of_unnamed {t u : Option AvroType} {home : Bool} (h : t = u)
    (ht : ∀ t', t = some t' → t'.isNamed = false) : NodePost v home t u := by
  refine ⟨h, fun t' ht' => .of_unnamed ?_⟩
  have hnamed := ht t' ht'
  cases hn : t'.name? with
  | none => rfl
  | some name => simp [named_of_name hn] at hnamed

theorem object_node_alike (h : NodesAlike c v document levels node node')
    (hrefs : ReferencesAlike cfg c v document node node') (hc : Faithful c v)
    (hs : AtSite c v document site scope depth) (hhome : site.home = true → frames = [])
    {o : Object} (hfits : fits v site (.obj o) = true)
    (hfit : AllFit v document levels (visits document site (.obj o))) :
    BuildsAlike c frames (objectNode cfg node o scope)
      (objectNode cfg node' o (scope.moved document depth)) fun t u s =>
        NodePost v site.home t u ∧
          (isAlias (.obj o) = true → ∀ name, t = some (.reference name) → c.known s name) := by
  rw [fits] at hfits
  rw [visits] at hfit
  unfold objectNode
  refine unconditional_builds_alike hc ?_
  by_cases hcomposition : hasComposition (unconditional o) = true
  · rw [if_pos hcomposition] at hfits hfit
    rw [if_pos hcomposition, if_pos hcomposition]
    have hexpand : expand (scope.moved document depth).document (unconditional o) =
        expand scope.document (unconditional o) := (expand_same hs.same hfits).symm
    rw [hexpand]
    rw [← expand_same hs.same hfits] at hfit
    dsimp only
    refine .bind_same (.lift (warn_all_alike hc _)) fun _ => ?_
    refine (candidates_type_alike h hs hhome _ _ hfit).imp fun _ _ _ hp => ⟨hp, ?_⟩
    simp [isAlias, hcomposition]
  · rw [if_neg hcomposition] at hfits hfit
    rw [if_neg hcomposition, if_neg hcomposition]
    dsimp only
    by_cases href : Object.contains (withObjectType (unconditional o)) "$ref" = true
    · rw [if_pos href] at hfits
      rw [if_pos href, if_pos href]
      refine (hrefs frames site _ scope depth hs hfits).imp ?_
      rintro t u s ⟨hsame, hunnamed, hknown⟩
      exact ⟨.of_unnamed hsame hunnamed, fun _ => hknown⟩
    · rw [if_neg href] at hfits hfit
      rw [if_neg href, if_neg href]
      have hplain : hasComposition (unconditional o) = false := by simpa using hcomposition
      refine .bind (keyword_type_alike h hc hs hhome (with_object_plain hplain) hfits hfit) ?_ ?_
      · intro _ _ _ t _ _ _
        split
        · exact .bind (neutral_reuse_registered _).logs fun _ => .pure _
        · exact .pure _
      · rintro t _ ⟨rfl, ht⟩
        have notAlias : isAlias (.obj o) = false := by simp [isAlias, href]
        cases t with
        | none => exact .pure fun _ => ⟨⟨rfl, by simp⟩, by simp [notAlias]⟩
        | some t =>
          have apart := (ht t rfl).apart (o := withObjectType (unconditional o)) hc.legal hs
          have named : Apart v v.named (nameType (withObjectType (unconditional o)) scope t) :=
            apart.mono fun hh => (hs.home hh).1
          refine .bind (reuse_registered_alike hc named) (fun _ _ _ _ _ _ _ => .pure _) ?_
          rintro _ _ ⟨rfl, rfl⟩
          refine .pure fun _ => ⟨⟨rfl, ?_⟩, by simp [notAlias]⟩
          rintro _ ⟨⟩
          exact apart

/-- A name on its own gives a type without a name. -/
theorem text_unnamed {field : String} (text : String) :
    (primitiveType field none none (.str text)).1.isNamed = false := by
  rw [primitiveType, singleType]
  split
  · rfl
  · dsimp only [valuesType, formatType]
    unfold namedType
    split <;> rfl

/-- One level of nodes is treated alike if the levels below it are. -/
theorem step_alike (h : NodesAlike c v document levels node node')
    (hrefs : ReferencesAlike cfg c v document node node') (hc : Faithful c v)
    (hs : AtSite c v document site scope depth) (hhome : site.home = true → frames = []) {j : Json}
    (hfit : fitsWithin v document (levels + 1) site j = true) :
    BuildsAlike c frames (step cfg node j scope) (step cfg node' j (scope.moved document depth))
      fun t u s => NodePost v site.home t u ∧
        (isAlias j = true → ∀ name, t = some (.reference name) → c.known s name) := by
  rw [fitsWithin, Bool.and_eq_true, List.all_eq_true] at hfit
  obtain ⟨hfits, hvisits⟩ := hfit
  have written : ∀ type : Json, (primitiveType site.localName none none type).1.isNamed = false →
      BuildsAlike c frames (do return some (← primitive scope none none type))
        (do return some (← primitive (scope.moved document depth) none none type))
        fun t u _ => NodePost v site.home t u := by
    intro type hnamed
    refine .bind (primitive_alike hs none none type) (fun _ _ _ _ _ _ _ => .pure _) ?_
    rintro t _ ⟨rfl, rfl⟩
    refine .pure fun _ => .of_unnamed rfl ?_
    rintro _ ⟨⟩
    exact hnamed
  have other : ∀ {x y : Build (Option AvroType)},
      BuildsAlike c frames x y (fun t u _ => NodePost v site.home t u) → isAlias j = false →
      BuildsAlike c frames x y fun t u s => NodePost v site.home t u ∧
        (isAlias j = true → ∀ name, t = some (.reference name) → c.known s name) :=
    fun hxy hj => hxy.imp fun _ _ _ hp => ⟨hp, by simp [hj]⟩
  have generic : NodePost v site.home (some AvroType.generic) (some AvroType.generic) :=
    .of_unnamed rfl (by rintro _ ⟨⟩; rfl)
  have warned : ∀ w : Warning, BuildsAlike c frames (do
        Run.warn w
        return some AvroType.generic) (do
        Run.warn w
        return some AvroType.generic) fun t u _ => NodePost v site.home t u :=
    fun w => .bind_same (.lift (warn_all_alike hc [w])) fun _ => .pure fun _ => generic
  cases j with
  | bool b =>
    cases b with
    | true => exact other (.pure fun _ => generic) rfl
    | false => exact other (.pure fun _ => ⟨rfl, by simp⟩) rfl
  | str text => exact other (written _ (text_unnamed text)) rfl
  | arr items => exact other (written _ (by simpa [fits] using hfits)) rfl
  | obj o => exact object_node_alike h hrefs hc hs hhome hfits hvisits
  | null => exact other (warned _) rfl
  | num n => exact other (warned _) rfl

/-- A run in which a node is given up need not be followed. -/
theorem too_deep_alike (hexact : c.exact = false) {y : Build (Option AvroType)}
    {post : Option AvroType → Option AvroType → State → Prop} :
    BuildsAlike c frames (tooDeep cfg scope) y post := by
  intro names names'
  refine ⟨fun _ => ?_, fun s s' _ hcounts => ?_⟩
  · exact Build.Logs.bind (.lift (Run.logs_warn _)) (fun _ => .pure _) names
  · have shallow := hcounts.resolve_left (by simp [hexact])
    exact absurd (List.mem_append_right _ (List.mem_singleton_self _))
      (shallow cfg.options.maxDepth scope.record)

theorem both_too_deep_alike (hc : Faithful c v) :
    BuildsAlike c frames (tooDeep cfg scope) (tooDeep cfg (scope.moved document depth))
      fun t u _ => t = u ∧ t = some .generic :=
  .bind_same (.lift (warn_all_alike hc [_])) fun _ => .pure fun _ => ⟨rfl, rfl⟩

/-- Nodes are treated alike at every number of levels, if the references below are. Unless the runs
are exact the second may have more levels left. -/
theorem levels_alike (hc : Faithful c v) {levels' : Nat} (hle : levels ≤ levels')
    (hexact : c.exact = true → levels = levels')
    (hrefs : ∀ l l', l < levels → l ≤ l' → (c.exact = true → l = l') →
      ReferencesAlike cfg c v document (nodeWithin cfg l) (nodeWithin cfg l')) :
    NodesAlike c v document levels' (nodeWithin cfg levels) (nodeWithin cfg levels') := by
  have deep : ∀ {frames : Frames} {site : Site} {j : Json} {scope : Scope} (depth : Nat)
      {y : Build (Option AvroType)}, (c.exact = true → y = tooDeep cfg (scope.moved document depth)) →
      BuildsAlike c frames (tooDeep cfg scope) y fun t u s => NodePost v site.home t u ∧
        (isAlias j = true → ∀ name, t = some (.reference name) → c.known s name) := by
    intro frames site j scope depth y hy
    by_cases he : c.exact = true
    · rw [hy he]
      refine (both_too_deep_alike hc).imp ?_
      rintro t _ _ ⟨rfl, rfl⟩
      refine ⟨.of_unnamed rfl (by rintro _ ⟨⟩; rfl), fun _ name hname => ?_⟩
      simp [generic] at hname
    · exact too_deep_alike (by simpa using he)
  induction levels generalizing levels' with
  | zero =>
    intro frames site j scope depth hs hhome hfit
    exact deep depth fun he => by rw [← hexact he]; rfl
  | succ levels ih =>
    obtain ⟨levels', rfl⟩ := Nat.exists_eq_add_of_le' (Nat.le_trans (Nat.le_add_left 1 levels) hle)
    intro frames site j scope depth hs hhome hfit
    simp only [nodeWithin]
    by_cases hdeep : cfg.options.maxDepth < scope.depth
    · rw [if_pos hdeep]
      refine deep depth fun he => ?_
      rw [if_pos]
      exact hs.exact he ▸ hdeep
    · have hdeep' : ¬cfg.options.maxDepth < (scope.moved document depth).depth := by
        have := hs.bound
        show ¬cfg.options.maxDepth < depth
        omega
      rw [if_neg hdeep, if_neg hdeep']
      have hbelow : levels ≤ levels' := Nat.le_of_succ_le_succ hle
      have hexact' : c.exact = true → levels = levels' := fun he => Nat.succ.inj (hexact he)
      have nodes := ih hbelow hexact' fun l l' hl => hrefs l l' (Nat.lt_succ_of_lt hl)
      exact step_alike nodes (hrefs levels levels' (Nat.lt_succ_self _) hbelow hexact') hc hs hhome
        hfit

end Steps

end AvroDerive.Convert
