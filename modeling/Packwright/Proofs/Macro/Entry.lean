import Packwright.Proofs.Macro.Body
import Packwright.Proofs.Macro.Delivery
import Packwright.Proofs.Macro.Meaning
import Packwright.Proofs.Macro.Names

/-! # A pass keeps what lines mean

While a scope is expanded, some of its lines are still those of the source or of a body, and others
call functions that were written for macro calls. An entry is a line of either kind, and the second
kind remembers its call, so the entries of a scope mean something at every point of a run: what its
macro calls and those it remembers stand for. A pass writes functions for calls and puts bodies in
their place. Neither changes what the entries mean, up to the depth that a listing looks
(`expandLines_keeps`).
-/

namespace Packwright.Macro

/-! ## Calls with a generated name -/

/-- A call in a checked namespace whose function has a generated name. -/
def Call.Proper (c : Call) : Prop := c.ns.Checked ∧ ∃ id, c.scopeName = Anonymous.name id

namespace Call.Proper

variable {c : Call}

theorem mark (h : c.Proper) : Anonymous.mark <:+: c.reference := by
  obtain ⟨-, id, hid⟩ := h
  rw [Call.reference, hid]
  exact Anonymous.mark_infix_reference c.ns id

theorem word (h : c.Proper) : Word c.reference := by
  obtain ⟨hns, id, hid⟩ := h
  rw [Call.reference, hid]
  refine ⟨hns.isField_reference, fun b hb => ?_⟩
  by_contra hcontrol
  simp only [isControl, Bool.not_eq_false, Bool.or_eq_true, beq_iff_eq] at hcontrol
  rcases hcontrol with (rfl | rfl) | rfl
  · exact hns.not_mem_reference (by decide) (by decide) (by decide) hb
  · exact hns.not_mem_reference (by decide) (by decide) (by decide) hb
  · exact hns.not_mem_reference (by decide) (by decide) (by decide) hb

theorem ne_callWord (h : c.Proper) : c.reference ≠ callWord := by
  intro heq
  have hmark := Text.occursIn_iff.mpr h.mark
  rw [heq] at hmark
  exact absurd hmark (by decide)

end Call.Proper

/-! ## Entries -/

/-- A line that neither holds the mark of a generated reference nor starts like a definition. -/
def isOrdinary (line : Text) : Bool :=
  !Text.occursIn Anonymous.mark line && Text.firstField line != generateWord

theorem isOrdinary_iff {line : Text} :
    isOrdinary line = true ↔ ¬ Anonymous.mark <:+: line ∧ Text.firstField line ≠ generateWord := by
  simp [isOrdinary, ← Text.occursIn_iff]

/-- A line of a scope in a run: one of the source or of a body, or one in which a function was
written for a call. -/
inductive Entry where
  | raw (line : Text)
  | call (lead : Text) (c : Call)

namespace Entry

/-- The line itself. -/
def text : Entry → Text
  | .raw line => line
  | .call lead c => callLine lead c.reference

/-- What a line stands for, given the definitions. -/
def reading (find? : Text → Option Definition) (ns : Text) : Entry → Reading
  | .raw line => .ofSource find? ns line
  | .call lead c => .ofCall find? ns lead c.callee c.args

/-- An entry of a scope in the namespace called `ns` that a run over ordinary lines can come to. -/
def Fine (calls : List Call) (ns : Text) : Entry → Prop
  | .raw line => Inked line ∧ isOrdinary line = true
  | .call lead c => c ∈ calls ∧ c.ns.name = ns ∧ Lead lead ∧ (∀ b ∈ lead, isControl b = false) ∧
      Text.firstField (callLine lead c.reference) ≠ generateWord

variable {calls : List Call} {ns : Text} {e : Entry}

theorem Fine.inked (hcalls : ∀ c ∈ calls, c.Proper) (h : e.Fine calls ns) : Inked e.text := by
  cases e with
  | raw line => exact h.1
  | call lead c =>
      obtain ⟨hc, -, -, hclean, -⟩ := h
      have hword := (hcalls c hc).word
      refine ⟨?_, fun b hb => ?_⟩
      · obtain ⟨b, hb, hne⟩ := hword.ink
        exact ⟨b, List.mem_append_right _ hb, hne⟩
      · have hfunction : ∀ b ∈ functionWord ++ Text.ascii " ", isControl b = false := by
          decide +kernel
        simp only [text, callLine, List.append_assoc] at hb
        rw [← List.append_assoc functionWord] at hb
        rcases List.mem_append.mp hb with hb | hb
        · exact hclean b hb
        · rcases List.mem_append.mp hb with hb | hb
          · exact hfunction b hb
          · exact hword.clean b hb

theorem Fine.header (h : e.Fine calls ns) : Header.parse? e.text = none := by
  cases e with
  | raw line => exact Header.parse?_eq_none (isOrdinary_iff.mp h.2).2
  | call lead c => exact Header.parse?_eq_none h.2.2.2.2

theorem Fine.parse?_call (hcalls : ∀ c ∈ calls, c.Proper) {lead : Text} {c : Call}
    (h : (Entry.call lead c).Fine calls ns) : CallSite.parse? (Entry.call lead c).text = none :=
  h.2.2.1.parse?_callLine (hcalls c h.1).word.field (hcalls c h.1).ne_callWord

/-- Only the lines of sources and bodies call macros. -/
theorem Fine.eq_raw (hcalls : ∀ c ∈ calls, c.Proper) (h : e.Fine calls ns) {site : CallSite}
    (hsite : CallSite.parse? e.text = some site) : e = .raw e.text := by
  cases e with
  | raw line => rfl
  | call lead c =>
      rw [h.parse?_call hcalls] at hsite
      cases hsite

/-- A macro call stands for what its macro and arguments stand for. -/
theorem reading_raw {find? : Text → Option Definition} {line callee : Text} {args : List Text}
    {site : CallSite} (hsite : CallSite.parse? line = some site)
    (hfields : Text.fields site.payload = callee :: args) :
    (Entry.raw line).reading find? ns = .ofCall find? ns site.lead callee args := by
  simp only [reading, Reading.ofSource, hsite, hfields]

end Entry

/-! ## What entries mean -/

section Mean

variable (find? : Text → Option Definition) (ns : Text)

/-- Lists the commands of entries, looking at most `depth` bodies deep. -/
def mean (depth : Nat) (es : List Entry) : Listing :=
  .concat (es.map fun e => (e.reading find? ns).list (expansion find? ns depth))

theorem mean_raw (n : Nat) (lines : List Text) :
    mean find? ns n (lines.map Entry.raw) = expansion find? ns (n + 1) lines := by
  rw [mean, List.map_map]
  rfl

theorem mean_append (n : Nat) (es es' : List Entry) :
    mean find? ns n (es ++ es') = (mean find? ns n es).append (mean find? ns n es') := by
  rw [mean, List.map_append, Listing.concat_append]
  rfl

theorem mean_below {m n : Nat} (h : m ≤ n) (es : List Entry) :
    (mean find? ns m es).Below (mean find? ns n es) :=
  Listing.concat_below fun e _ => Reading.list_below (list_below h) (e.reading find? ns)

/-- A line behind the white space before a call stands for the same, behind this white space. -/
theorem list_ofSource_append {lead : Text} (hlead : Lead lead) (hspace : Text.isSpace lead = true)
    (inner : List Text → Listing) (line : Text) :
    (Reading.ofSource find? ns (lead ++ line)).list inner =
      ((Reading.ofSource find? ns line).list inner).behind lead := by
  unfold Reading.ofSource
  rw [hlead.parse?_append]
  cases CallSite.parse? line with
  | none => rfl
  | some site =>
      dsimp only [Option.map_some, CallSite.behind]
      cases Text.fields site.payload with
      | nil => rfl
      | cons callee args =>
          dsimp only [Reading.ofCall]
          rw [Text.isSpace_append hlead.ends hspace]
          split
          next =>
            cases find? callee with
            | none => rfl
            | some d =>
                dsimp only [Reading.list, Listing.behind]
                rw [List.map_map]
                congr 2
                funext c
                cases c <;> simp [Command.behind]
          next => rfl

theorem mean_behind {lead : Text} (hlead : Lead lead) (hspace : Text.isSpace lead = true) (n : Nat)
    (lines : List Text) :
    mean find? ns n (lines.map fun line => .raw (lead ++ line)) =
      (expansion find? ns (n + 1) lines).behind lead := by
  rw [← mean_raw, mean, mean, Listing.behind_concat, List.map_map, List.map_map, List.map_map]
  congr 2
  funext line
  exact list_ofSource_append find? ns hlead hspace _ line

/-- Entries mean the same as others, up to the depth that a listing looks. -/
def Keeps (k : Nat) (es es' : List Entry) : Prop :=
  ∀ n, (mean find? ns n es).Below (mean find? ns n es') ∧
    (mean find? ns n es').Below (mean find? ns (n + k) es)

variable {find? ns} {es es' es'' : List Entry}

theorem Keeps.refl (k : Nat) (es : List Entry) : Keeps find? ns k es es :=
  fun n => ⟨.refl _, mean_below find? ns (Nat.le_add_right n k) es⟩

theorem Keeps.trans {j k : Nat} (h : Keeps find? ns j es es') (h' : Keeps find? ns k es' es'') :
    Keeps find? ns (j + k) es es'' := by
  intro n
  refine ⟨(h n).1.trans (h' n).1, ?_⟩
  rw [Nat.add_comm j k, ← Nat.add_assoc]
  exact (h' n).2.trans (h (n + k)).2

theorem Keeps.append {k : Nat} {fs fs' : List Entry} (h : Keeps find? ns k es es')
    (h' : Keeps find? ns k fs fs') : Keeps find? ns k (es ++ fs) (es' ++ fs') := by
  intro n
  simp only [mean_append]
  exact ⟨(h n).1.append (h' n).1, (h n).2.append (h' n).2⟩

/-- Entries that stand for the same mean the same. -/
theorem Keeps.of_reading {e e' : Entry} (k : Nat) (h : e'.reading find? ns = e.reading find? ns) :
    Keeps find? ns k [e] [e'] := by
  have hmean : ∀ n, mean find? ns n [e'] = mean find? ns n [e] := by
    intro n
    simp only [mean, List.map_singleton, h]
  intro n
  rw [hmean]
  exact Keeps.refl k [e] n

end Mean

/-! ## Passes -/

section Pass

variable {T t t' : Table} {s : Scope}

theorem within_resolve {site : CallSite} {answer : Except Fault Expanded} (hs : s.ns.Checked)
    (h : t.Within Namespace.Checked) (hresolve : t.resolve s site = (t', answer)) :
    t'.Within Namespace.Checked :=
  (Table.moves_of_resolve hresolve).within hs h

/-- A body behind the white space before a call has ordinary lines if it has them alone. -/
theorem fine_behind {line : Text} {site : CallSite} (hline : Inked line)
    (hordinary : isOrdinary line = true) (hsite : CallSite.parse? line = some site)
    (hspace : Text.isSpace site.lead = true) {l : Text} (hl : Inked l)
    (hbody : isOrdinary l = true) :
    Inked (site.lead ++ l) ∧ isOrdinary (site.lead ++ l) = true := by
  obtain ⟨hdivided, hlead⟩ := Lead.of_parse? hsite
  rw [isOrdinary_iff] at hordinary hbody ⊢
  refine ⟨⟨?_, fun b hb => ?_⟩, fun hmark => ?_, ?_⟩
  · obtain ⟨b, hb, hne⟩ := hl.ink
    exact ⟨b, List.mem_append_right _ hb, hne⟩
  · rcases List.mem_append.mp hb with hb | hb
    · refine hline.clean b ?_
      rw [hdivided, List.append_assoc]
      exact List.mem_append_left _ hb
    · exact hl.clean b hb
  · have hneedle : ∀ b ∈ Anonymous.mark, Text.isBlank b = false := by decide +kernel
    rcases Text.infix_append_of_endsBlank hneedle hlead.ends hmark with hmark | hmark
    · refine hordinary.1 (hmark.trans ?_)
      rw [hdivided, List.append_assoc]
      exact (List.prefix_append _ _).isInfix
    · exact hbody.1 hmark
  · rw [Text.firstField_append hlead.ends, if_pos hspace]
    exact hbody.2

/-- A call of the function for a macro call means what the macro call means. -/
theorem written_keeps {line callee : Text} {args : List Text} {site : CallSite} {c : Call}
    (hs : s.ns.Checked) (hclean : t.Clean) (hwithin : t.Within Namespace.Checked)
    (hT : t.Extends T) (hline : Inked line) (hordinary : isOrdinary line = true)
    (hsite : CallSite.parse? line = some site)
    (hfields : Text.fields site.payload = callee :: args) (hc : c ∈ t.calls)
    (hkey : c.key = Call.keyOf s.ns callee args) :
    ∃ c', c'.reference = c.reference ∧ (Entry.call site.lead c').Fine T.calls s.ns.name ∧
      Keeps T.find? s.ns.name 1 [.raw line] [.call site.lead c'] := by
  obtain ⟨hdivided, hlead⟩ := Lead.of_parse? hsite
  have hwords := hline.words hsite
  rw [hfields, List.forall_mem_cons] at hwords
  obtain ⟨hcalled, hgiven⟩ := hclean.calls c hc
  -- the key of a call is injective on words, so the recorded call has this macro and arguments
  obtain ⟨hname, hcallee, hargs⟩ := Call.keyOf_inj (hwithin.1 c hc) hs hcalled.nul_not_mem
    hwords.1.nul_not_mem (fun a ha => (hgiven a ha).field) (fun a ha => (hwords.2 a ha).field) hkey
  obtain ⟨c', hc', hbare⟩ := hT.mem_calls hc
  obtain ⟨hcallee', hargs', hns, -⟩ := Call.fields_of_bare hbare
  refine ⟨c', Call.reference_of_bare hbare, ⟨hc', hns ▸ hname, hlead, ?_, ?_⟩, .of_reading 1 ?_⟩
  · intro b hb
    apply hline.clean b
    rw [hdivided, List.append_assoc]
    exact List.mem_append_left _ hb
  · exact hlead.firstField_callLine_ne hdivided (isOrdinary_iff.mp hordinary).2 _
  · rw [Entry.reading_raw hsite hfields, Entry.reading, hcallee', hargs', hcallee, hargs]

/-- The body of a macro means what the call means, one body less deep. -/
theorem inlined_keeps {line callee : Text} {args : List Text} {site : CallSite} {d : Definition}
    (hT : t.Extends T) (hsite : CallSite.parse? line = some site)
    (hfields : Text.fields site.payload = callee :: args) (hfind : t.find? callee = some d)
    (hspace : Text.isSpace site.lead = true) :
    Keeps T.find? s.ns.name 1 [.raw line]
      ((d.expand args).map fun l => .raw (site.lead ++ l)) := by
  have hlead := (Lead.of_parse? hsite).2
  have hmean : ∀ m, mean T.find? s.ns.name m [.raw line] =
      (expansion T.find? s.ns.name m (d.expand args)).behind site.lead := by
    intro m
    rw [mean, List.map_singleton, Listing.concat_singleton, Entry.reading_raw hsite hfields,
      Reading.ofCall, if_pos hspace, hT.find? hfind]
    rfl
  intro n
  rw [mean_behind _ _ hlead hspace, hmean, hmean]
  exact ⟨(list_below (Nat.le_succ n) _).behind _, .refl _⟩

/-- What a call becomes means the same as the call. -/
theorem resolve_keeps {line : Text} {site : CallSite} {x : Expanded}
    (hproper : ∀ c ∈ T.calls, c.Proper) (hs : s.ns.Checked) (hclean : t'.Clean)
    (hwithin : t'.Within Namespace.Checked) (hline : Inked line)
    (hordinary : isOrdinary line = true) (hsite : CallSite.parse? line = some site)
    (hresolve : t.resolve s site = (t', .ok x)) (hT : t'.Extends T)
    (hbody : ∀ body : List Text, x = ⟨body.map (site.lead ++ ·), true⟩ →
      ∀ l ∈ body, isOrdinary l = true) :
    ∃ es, x.lines = es.map Entry.text ∧ (∀ e ∈ es, e.Fine T.calls s.ns.name) ∧
      Keeps T.find? s.ns.name 1 [.raw line] es ∧
      (x.inlined = false → ∀ e ∈ es, CallSite.parse? e.text = none) := by
  obtain ⟨callee, args, hfields, hcases⟩ := Table.resolve_ok hresolve
  obtain ⟨c, hc, hkey, rfl⟩ | ⟨d, hfind, hspace, rfl, rfl⟩ := hcases
  · obtain ⟨c', hreference, hfine, hkeeps⟩ := written_keeps hs hclean hwithin hT hline hordinary
      hsite hfields hc hkey
    refine ⟨[.call site.lead c'], ?_, ?_, hkeeps, fun _ => ?_⟩
    · simp [Entry.text, hreference]
    · simpa using hfine
    · simpa using hfine.parse?_call hproper
  · have hwords := hline.words hsite
    rw [hfields, List.forall_mem_cons] at hwords
    have hinked := Definition.inked_expand (hclean.definitions d (List.mem_of_find?_eq_some hfind))
      hwords.2
    refine ⟨_, ?_, ?_, inlined_keeps hT hsite hfields hfind hspace, nofun⟩
    · rw [List.map_map]
      rfl
    · intro e he
      obtain ⟨l, hl, rfl⟩ := List.mem_map.mp he
      exact fine_behind hline hordinary hsite hspace (hinked l hl) (hbody _ rfl l hl)

/-- A pass over lines keeps what they mean. Once it puts no body in, no macro call is left. -/
theorem expandLines_keeps {lines : List Text} {x : Expanded} {es : List Entry}
    (hproper : ∀ c ∈ T.calls, c.Proper) (hs : s.ns.Checked) (hclean : t.Clean)
    (hwithin : t.Within Namespace.Checked) (hinked : ∀ line ∈ lines, Inked line)
    (hbody : ∀ q ∈ t.resolutions s lines, ∀ body : List Text,
      (q.1.resolve s q.2).2 = .ok ⟨body.map (q.2.lead ++ ·), true⟩ →
        ∀ l ∈ body, isOrdinary l = true)
    (h : t.expandLines s lines = (t', .ok x)) (hT : t'.Extends T)
    (hes : commandsIn lines = es.map Entry.text) (hfine : ∀ e ∈ es, e.Fine T.calls s.ns.name) :
    t'.Clean ∧ ∃ es', x.lines = es'.map Entry.text ∧ (∀ e ∈ es', e.Fine T.calls s.ns.name) ∧
      Keeps T.find? s.ns.name 1 es es' ∧
      (x.inlined = false → ∀ e ∈ es', CallSite.parse? e.text = none) := by
  fun_induction Table.expandLines t s lines generalizing t' x es with
  | case1 t =>
      cases h
      have hnil : es = [] := List.map_eq_nil_iff.mp (by rw [← hes, commandsIn])
      subst hnil
      exact ⟨hclean, [], rfl, by simp, .refl 1 [], by simp⟩
  | case2 | case5 => cases h
  | case3 t line rest name params hheader depth =>
      -- a definition is no entry: only the table changes, by lines that show something
      rename_i isBody ih
      rw [commandsIn] at hes
      rw [Table.resolutions_define hheader] at hbody
      simp only [hheader] at hes
      have hrest : ∀ l ∈ rest, Inked l := fun l hl => hinked l (List.mem_cons_of_mem _ hl)
      refine ih (Table.clean_define hclean ?_) (Table.within_define hwithin _) (fun l hl => ?_)
        hbody h hT hes hfine
      · refine Definition.forall_mem_read (fun hn hl => hl.drop hn) fun l hl => ?_
        exact hrest l ((List.takeWhile_sublist _).subset hl)
      · exact hrest l ((List.dropWhile_sublist _).subset hl)
  | case4 t line rest hheader hsite t₁ result hrest ih =>
      obtain ⟨rfl, hx⟩ := Prod.mk.inj h
      rw [commandsIn] at hes
      rw [Table.resolutions_plain hheader hsite] at hbody
      simp only [hheader] at hes
      obtain ⟨e, es₀, rfl, rfl, hes₀⟩ := List.map_eq_cons_iff.mp hes.symm
      rw [List.forall_mem_cons] at hfine
      cases result with
      | error fault => cases hx
      | ok y =>
          cases hx
          obtain ⟨hclean', es₁, hlines, hfine₁, hkeeps, hfree⟩ := ih hclean hwithin
            (fun l hl => hinked l (List.mem_cons_of_mem _ hl)) hbody hrest hT hes₀.symm hfine.2
          refine ⟨hclean', e :: es₁, by simp [Expanded.append, hlines], ?_, ?_, fun hin => ?_⟩
          · exact List.forall_mem_cons.mpr ⟨hfine.1, hfine₁⟩
          · exact (Keeps.refl 1 [e]).append hkeeps
          · exact List.forall_mem_cons.mpr ⟨hsite, hfree (by simpa [Expanded.append] using hin)⟩
  | case6 t line rest hheader site hsite t₁ y hresolve t₂ result hrest ih =>
      obtain ⟨rfl, hx⟩ := Prod.mk.inj h
      rw [commandsIn] at hes
      rw [Table.resolutions_call hheader hsite hresolve] at hbody
      simp only [hheader] at hes
      obtain ⟨e, es₀, rfl, htext, hes₀⟩ := List.map_eq_cons_iff.mp hes.symm
      rw [List.forall_mem_cons] at hfine hinked hbody
      cases result with
      | error fault => cases hx
      | ok z =>
          cases hx
          -- written calls hold no macro call, so the entry here is a line as it stands
          obtain rfl : e = .raw line := htext ▸ hfine.1.eq_raw hproper (htext ▸ hsite)
          have hclean₁ := Table.clean_resolve hclean hfine.1.1 hsite hresolve
          have hwithin₁ := within_resolve hs hwithin hresolve
          have hbetween : t₁.Extends t₂ := by
            have hmoves := Table.expandLines_moves t₁ s rest
            rw [hrest] at hmoves
            exact hmoves.extends
          obtain ⟨es₁, hlines₁, hfine₁, hkeeps₁, hfree₁⟩ := resolve_keeps hproper hs hclean₁
            hwithin₁ hfine.1.1 hfine.1.2 hsite hresolve (hbetween.trans hT) fun body hy =>
              hbody.1 body (by rw [hresolve, hy])
          obtain ⟨hclean₂, es₂, hlines₂, hfine₂, hkeeps₂, hfree₂⟩ := ih hclean₁ hwithin₁ hinked.2
            hbody.2 hrest hT hes₀.symm hfine.2
          refine ⟨hclean₂, es₁ ++ es₂, by simp [Expanded.append, hlines₁, hlines₂], ?_, ?_, ?_⟩
          · exact List.forall_mem_append.mpr ⟨hfine₁, hfine₂⟩
          · exact hkeeps₁.append hkeeps₂
          · intro hin
            obtain ⟨hy, hz⟩ := Bool.or_eq_false_iff.mp hin
            exact List.forall_mem_append.mpr ⟨hfree₁ hy, hfree₂ hz⟩

end Pass

end Packwright.Macro
