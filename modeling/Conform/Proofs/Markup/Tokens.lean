import Conform.Markup.Document
import Mathlib.Tactic.Common
/-!
# Tokens of a document

An element is flattened to its tokens: its beginning, its text, its children with their tails, and
its end. The events of a document spell the same tokens, so the building of a document loses no tag
and no character data, and puts none in another place. An event adds its tokens to those of the
building before it.
-/

namespace Conform.Markup

/-- What a tag says of an element. -/
structure Head where
  name : QName
  attributes : Listing QName String
  scope : Scope
deriving DecidableEq

/-- The beginning or the end of an element, or character data. -/
inductive Token where
  | opening (head : Head)
  | closing
  | text (s : String)
deriving DecidableEq

namespace Token

/-- Character data that may be missing. -/
def ofData (data : Option String) : List Token := data.toList.map .text

/-- The tokens with one more at the end. Character data behind character data continues it. -/
def push (ts : List Token) : Token → List Token
  | .text more =>
    match ts.getLast? with
    | some (.text s) => ts.dropLast ++ [.text (s ++ more)]
    | _ => ts ++ [.text more]
  | t => ts ++ [t]

/-- The tokens with adjacent character data in one. -/
def merged (ts : List Token) : List Token := ts.foldl push []

end Token

end Markup

namespace Element

open Markup

/-- The tag that opens the element. -/
def head (e : Element) : Head := ⟨e.name, e.attributes, e.scope⟩

mutual

/-- The tokens of the element, without its tail. -/
def tokens : Element → List Token
  | ⟨name, attributes, text, _, children, scope⟩ =>
    .opening ⟨name, attributes, scope⟩ ::
      (Token.ofData text ++ tokensOfAll children ++ [.closing])

/-- The tokens of elements with their tails. -/
def tokensOfAll : List Element → List Token
  | [] => []
  | e :: rest => tokens e ++ Token.ofData e.tail ++ tokensOfAll rest

end

/-- The tokens of an element that is still open. -/
def beginning (e : Element) : List Token :=
  .opening e.head :: (Token.ofData e.text ++ tokensOfAll e.children)

end Element

namespace Markup

/-! ## What the events spell -/

/-- The tag in the innermost of the open scopes. -/
def Tag.head? (tag : Tag) (scopes : List Scope) : Option Head :=
  (tag.element (scopes.head?.getD Building.baseScope)).toOption.map Element.head

/-- The tokens of an event inside open elements, and the scopes that are open behind it. Outside of
all elements only tags have tokens. -/
def Event.spell (scopes : List Scope) : Event → Option (List Token × List Scope)
  | .start tag => (tag.head? scopes).map fun head => ([.opening head], head.scope :: scopes)
  | .empty tag => (tag.head? scopes).map fun head => ([.opening head, .closing], scopes)
  | .close =>
    match scopes with
    | _ :: outer => some ([.closing], outer)
    | [] => some ([], [])
  | .text octets =>
    if scopes.isEmpty then some ([], scopes)
    else ((Text.ofOctets? octets).bind fun s => unescape s.toList).map fun cs =>
      ([.text (String.ofList cs)], scopes)
  | .data octets =>
    if scopes.isEmpty then some ([], scopes)
    else (Text.ofOctets? octets).map fun s => ([.text s], scopes)
  | .skipped => some ([], scopes)

/-- The tokens of events inside open elements. -/
def spell : List Scope → List Event → Option (List Token)
  | _, [] => some []
  | scopes, e :: rest => do
    let (tokens, inner) ← e.spell scopes
    return tokens ++ (← spell inner rest)

/-- How many elements are open behind an event, of those before it. -/
def Event.level (opened : Nat) : Event → Nat
  | .start _ => opened + 1
  | .close => opened - 1
  | _ => opened

/-- How many outermost elements an event begins. -/
def Event.roots (opened : Nat) : Event → Nat
  | .start _ | .empty _ => if opened = 0 then 1 else 0
  | _ => 0

/-- How many outermost elements events begin. -/
def rootCount : Nat → List Event → Nat
  | _, [] => 0
  | opened, e :: rest => e.roots opened + rootCount (e.level opened) rest

/-! ## Flattened elements -/

theorem Token.push_data {t : Token} (ht : ∀ s, t ≠ .text s) (ts : List Token)
    (data : Option String) (more : String) :
    push (ts ++ t :: ofData data) (.text more) =
      ts ++ t :: ofData (Element.appendData data more) := by
  cases data with
  | some s => simp [push, ofData, Element.appendData, List.dropLast_append_of_ne_nil]
  | none =>
      cases t with
      | text s => exact absurd rfl (ht s)
      | opening head => simp [push, ofData, Element.appendData]
      | closing => simp [push, ofData, Element.appendData]

end Markup

namespace Element

open Markup

theorem tokens_eq (e : Element) : e.tokens = e.beginning ++ [.closing] := by
  cases e
  simp [tokens, beginning, head]

theorem tokensOfAll_cons (e : Element) (es : List Element) :
    tokensOfAll (e :: es) = e.tokens ++ Token.ofData e.tail ++ tokensOfAll es := rfl

theorem tokensOfAll_append (es more : List Element) :
    tokensOfAll (es ++ more) = tokensOfAll es ++ tokensOfAll more := by
  induction es with
  | nil => rfl
  | cons e rest ih => simp [tokensOfAll, ih]

theorem beginning_addChild (e child : Element) :
    (e.addChild child).beginning = e.beginning ++ child.tokens ++ Token.ofData child.tail := by
  simp [beginning, head, addChild, tokensOfAll_append, tokensOfAll]

theorem push_tokensOfAll (more : String) : ∀ {es : List Element} (ts : List Token), es ≠ [] →
    Token.push (ts ++ tokensOfAll es) (.text more) = ts ++ tokensOfAll (appendTail more es)
  | [], _, hne => absurd rfl hne
  | [e], ts, _ => by
    have hsame : { e with tail := appendData e.tail more : Element }.tokens = e.tokens := by
      cases e
      rfl
    have hpush := Token.push_data (t := .closing) nofun (ts ++ e.beginning) e.tail more
    simpa [tokensOfAll, appendTail, hsame, tokens_eq] using hpush
  | e :: e' :: rest, ts, _ => by
    have hrest := push_tokensOfAll more (ts ++ (e.tokens ++ Token.ofData e.tail))
      (List.cons_ne_nil e' rest)
    rw [appendTail, tokensOfAll_cons e, tokensOfAll_cons e, ← List.append_assoc, hrest,
      List.append_assoc]
    exact List.cons_ne_nil _ _

/-- More character data in an open element is more at its end. -/
theorem push_beginning (e : Element) (ts : List Token) (more : String) :
    Token.push (ts ++ e.beginning) (.text more) = ts ++ (e.appendText more).beginning := by
  unfold appendText
  split
  · rename_i hempty
    have hpush := Token.push_data (t := .opening e.head) nofun ts e.text more
    simpa [beginning, head, tokensOfAll, List.isEmpty_iff.1 hempty] using hpush
  · rename_i hne
    have hpush := push_tokensOfAll more (ts ++ .opening e.head :: Token.ofData e.text)
      (fun h => hne (List.isEmpty_iff.2 h))
    simpa [beginning, head] using hpush

theorem scope_appendText (e : Element) (more : String) : (e.appendText more).scope = e.scope := by
  unfold appendText
  split <;> rfl

theorem tail_appendText (e : Element) (more : String) : (e.appendText more).tail = e.tail := by
  unfold appendText
  split <;> rfl

end Element

namespace Markup

/-- A tag opens an element without content. -/
theorem Tag.eq_of_element {tag : Tag} {outer : Scope} {e : Element}
    (h : tag.element outer = .ok e) : e.text = none ∧ e.tail = none ∧ e.children = [] := by
  unfold Tag.element at h
  split at h
  · cases h
  · dsimp only at h
    split at h
    · cases h
    · split at h
      · cases h
      · split at h
        · cases h
        · cases h
          exact ⟨rfl, rfl, rfl⟩

namespace Building

variable {b b' : Building} {e : Event} {events : List Event}

/-- The tokens of open elements, innermost first. -/
def openTokens : List Element → List Token
  | [] => []
  | e :: outer => openTokens outer ++ e.beginning

/-- The tokens that are in the building. -/
def written (b : Building) : List Token :=
  (b.root.map Element.tokens).getD [] ++ openTokens b.opened

def scopes (b : Building) : List Scope := b.opened.map (·.scope)

/-- Nothing follows the root and the open elements. -/
def Tailless (b : Building) : Prop := ∀ e ∈ b.root.toList ++ b.opened, e.tail = none

/-- How many outermost elements were begun. -/
def begun (b : Building) : Nat := b.root.toList.length + min b.opened.length 1

/-- An element that is attached adds its tokens. -/
theorem attach_spec {e : Element} (h : b.attach e = .ok b') (htail : e.tail = none)
    (hb : b.Tailless) :
    b'.Tailless ∧ b'.scopes = b.scopes ∧ b'.written = b.written ++ e.tokens ∧
      b'.begun = b.begun + if b.opened = [] then 1 else 0 := by
  obtain ⟨root, opened⟩ := b
  unfold attach at h
  cases opened with
  | cons parent outer =>
      cases h
      refine ⟨fun x hx => ?_, rfl, ?_, rfl⟩
      · rcases List.mem_append.1 hx with hx | hx
        · exact hb x (List.mem_append_left _ hx)
        · rcases List.mem_cons.1 hx with rfl | hx
          · exact hb parent (by simp)
          · exact hb x (by simp [hx])
      · simp [written, openTokens, Element.beginning_addChild, htail, Token.ofData]
  | nil =>
      cases root with
      | some r => cases h
      | none =>
          cases h
          refine ⟨fun x hx => ?_, rfl, by simp [written, openTokens], rfl⟩
          obtain rfl : x = e := by simpa using hx
          exact htail

/-- Character data in an open element is added to the tokens. -/
theorem append_spec (hopened : b.opened ≠ []) (hb : b.Tailless) (more : String) :
    (b.append more).Tailless ∧ (b.append more).scopes = b.scopes ∧
      (b.append more).written = Token.push b.written (.text more) := by
  obtain ⟨root, opened⟩ := b
  cases opened with
  | nil => exact absurd rfl hopened
  | cons e outer =>
      refine ⟨fun x hx => ?_, ?_, ?_⟩
      · rcases List.mem_append.1 hx with hx | hx
        · exact hb x (List.mem_append_left _ hx)
        · rcases List.mem_cons.1 hx with rfl | hx
          · rw [Element.tail_appendText]
            exact hb e (by simp)
          · exact hb x (by simp [hx])
      · simp [append, scopes, Element.scope_appendText]
      · simp only [append, written, openTokens]
        rw [← List.append_assoc, ← List.append_assoc]
        exact (Element.push_beginning e _ more).symm

theorem head?_scopes {tag : Tag} {e : Element} (h : tag.element b.scope = .ok e) :
    tag.head? b.scopes = some e.head := by
  have hscope : b.scopes.head?.getD baseScope = b.scope := by rw [scopes, scope, List.head?_map]
  rw [Tag.head?, hscope, h]
  rfl

/-- What an event that is read does to a building. Characters and ends that no element is open for are
dropped. -/
inductive Steps (b : Building) : Event → Building → Prop
  | start {tag : Tag} {e : Element} : tag.element b.scope = .ok e →
    Steps b (.start tag) { b with opened := e :: b.opened }
  | empty {tag : Tag} {e : Element} {b' : Building} : tag.element b.scope = .ok e →
    b.attach e = .ok b' → Steps b (.empty tag) b'
  | close {e : Element} {outer : List Element} {b' : Building} : b.opened = e :: outer →
    attach { b with opened := outer } e = .ok b' → Steps b .close b'
  | text {octets : List UInt8} {cs : List Char} : b.opened ≠ [] →
    ((Text.ofOctets? octets).bind fun s => unescape s.toList) = some cs →
    Steps b (.text octets) (b.append (String.ofList cs))
  | data {octets : List UInt8} {s : String} : b.opened ≠ [] → Text.ofOctets? octets = some s →
    Steps b (.data octets) (b.append s)
  | skipped : Steps b .skipped b
  | outside {e : Event} : b.opened = [] →
    (e = .close ∨ ∃ octets, e = .text octets ∨ e = .data octets) → Steps b e b

theorem steps_of_step (h : b.step e = .ok b') : b.Steps e b' := by
  cases e with
  | start tag =>
      simp only [step, bind, Except.bind, pure, Except.pure] at h
      cases helement : tag.element b.scope with
      | error f => rw [helement] at h; cases h
      | ok e =>
          rw [helement] at h
          cases h
          exact .start helement
  | empty tag =>
      simp only [step, bind, Except.bind] at h
      cases helement : tag.element b.scope with
      | error f => rw [helement] at h; cases h
      | ok e =>
          rw [helement] at h
          exact .empty helement h
  | close =>
      simp only [step] at h
      split at h
      · rename_i e outer hopened
        exact .close hopened h
      · rename_i hopened
        cases h
        exact .outside hopened (.inl rfl)
  | text octets =>
      simp only [step] at h
      split at h
      · rename_i hopened
        cases h
        exact .outside (List.isEmpty_iff.1 hopened) (.inr ⟨octets, .inl rfl⟩)
      · rename_i hopened
        split at h
        · rename_i cs hread
          cases h
          exact .text (fun hnil => hopened (List.isEmpty_iff.2 hnil)) hread
        · cases h
  | data octets =>
      simp only [step] at h
      split at h
      · rename_i hopened
        cases h
        exact .outside (List.isEmpty_iff.1 hopened) (.inr ⟨octets, .inr rfl⟩)
      · rename_i hopened
        split at h
        · rename_i s hread
          cases h
          exact .data (fun hnil => hopened (List.isEmpty_iff.2 hnil)) hread
        · cases h
  | skipped =>
      cases h
      exact .skipped

/-- What an event does to a building: its tokens are added. -/
structure Takes (b : Building) (e : Event) (b' : Building) : Prop where
  tailless : b'.Tailless
  spell : ∃ ts, e.spell b.scopes = some (ts, b'.scopes) ∧ ts.foldl Token.push b.written = b'.written
  level : b'.opened.length = e.level b.opened.length
  begun : b'.begun = b.begun + e.roots b.opened.length

theorem Takes.of_append {s : String} (hopened : b.opened ≠ []) (hb : b.Tailless)
    (hspell : e.spell b.scopes = some ([.text s], b.scopes))
    (hlevel : e.level b.opened.length = b.opened.length) (hroots : e.roots b.opened.length = 0) :
    b.Takes e (b.append s) := by
  obtain ⟨htailless, hscopes, hwritten⟩ := append_spec hopened hb s
  obtain ⟨root, opened⟩ := b
  cases opened with
  | nil => exact absurd rfl hopened
  | cons e' outer =>
      refine ⟨htailless, ⟨[.text s], ?_, hwritten.symm⟩, hlevel.symm, ?_⟩
      · rw [hscopes, hspell]
      · rw [hroots]
        rfl

/-- An event without tokens leaves the building as it is. -/
theorem Takes.refl (hb : b.Tailless) (hspell : e.spell b.scopes = some ([], b.scopes))
    (hlevel : e.level b.opened.length = b.opened.length) (hroots : e.roots b.opened.length = 0) :
    b.Takes e b :=
  ⟨hb, ⟨[], hspell, rfl⟩, hlevel.symm, by rw [hroots]; rfl⟩

theorem takes_start {tag : Tag} {e : Element} (helement : tag.element b.scope = .ok e)
    (hb : b.Tailless) : b.Takes (.start tag) { b with opened := e :: b.opened } := by
  obtain ⟨htext, htail, hchildren⟩ := Tag.eq_of_element helement
  refine ⟨fun x hx => ?_, ⟨[.opening e.head], ?_, ?_⟩, rfl, ?_⟩
  · rcases List.mem_append.1 hx with hx | hx
    · exact hb x (List.mem_append_left _ hx)
    · rcases List.mem_cons.1 hx with rfl | hx
      · exact htail
      · exact hb x (List.mem_append_right _ hx)
  · rw [Event.spell, head?_scopes helement]
    rfl
  · simp [written, openTokens, Element.beginning, htext, hchildren, Token.push, Token.ofData,
      Element.tokensOfAll]
  · cases hopened : b.opened <;> simp [begun, Event.roots, hopened]

theorem takes_empty {tag : Tag} {e : Element} (helement : tag.element b.scope = .ok e)
    (h : b.attach e = .ok b') (hb : b.Tailless) : b.Takes (.empty tag) b' := by
  obtain ⟨htext, htail, hchildren⟩ := Tag.eq_of_element helement
  obtain ⟨htailless, hscopes, hwritten, hbegun⟩ := attach_spec h htail hb
  refine ⟨htailless, ⟨[.opening e.head, .closing], ?_, ?_⟩, ?_, ?_⟩
  · rw [Event.spell, head?_scopes helement, hscopes]
    rfl
  · simp [hwritten, Element.tokens_eq, Element.beginning, htext, hchildren, Token.push,
      Token.ofData, Element.tokensOfAll]
  · simpa [scopes, Event.level] using congrArg List.length hscopes
  · simpa [Event.roots] using hbegun

/-- The innermost open element is closed: it was written up to its end. -/
theorem takes_close {e : Element} {outer : List Element} (hopened : b.opened = e :: outer)
    (h : attach { b with opened := outer } e = .ok b') (hb : b.Tailless) : b.Takes .close b' := by
  obtain ⟨root, opened⟩ := b
  obtain rfl : opened = e :: outer := hopened
  have hbefore : Tailless ⟨root, outer⟩ := fun x hx => by
    refine hb x ?_
    rcases List.mem_append.1 hx with hx | hx
    · exact List.mem_append_left _ hx
    · exact List.mem_append_right _ (List.mem_cons_of_mem _ hx)
  have htail : e.tail = none := hb e (by simp)
  obtain ⟨htailless, hscopes, hwritten, hbegun⟩ := attach_spec h htail hbefore
  refine ⟨htailless, ⟨[.closing], ?_, ?_⟩, ?_, ?_⟩
  · rw [hscopes]
    rfl
  · rw [hwritten, Element.tokens_eq]
    simp [written, openTokens, Token.push]
  · simpa [scopes, Event.level] using congrArg List.length hscopes
  · rw [hbegun]
    cases outer <;> simp [begun, Event.roots]

/-- Every event that is read adds its tokens. -/
theorem takes_of_step (h : b.step e = .ok b') (hb : b.Tailless) : b.Takes e b' := by
  cases steps_of_step h with
  | start helement => exact takes_start helement hb
  | empty helement hattach => exact takes_empty helement hattach hb
  | close hopened hattach => exact takes_close hopened hattach hb
  | text hopened hread =>
      refine Takes.of_append hopened hb ?_ rfl rfl
      rw [Event.spell, if_neg (by simpa [scopes] using hopened), hread]
      rfl
  | data hopened hread =>
      refine Takes.of_append hopened hb ?_ rfl rfl
      rw [Event.spell, if_neg (by simpa [scopes] using hopened), hread]
      rfl
  | skipped => exact Takes.refl hb rfl rfl rfl
  | outside hopened he =>
      obtain rfl | ⟨octets, rfl | rfl⟩ := he <;>
        exact Takes.refl hb (by simp [Event.spell, scopes, hopened])
          (by simp [Event.level, hopened]) rfl

/-- What events do to a building. -/
structure TakesAll (b : Building) (events : List Event) (b' : Building) : Prop where
  tailless : b'.Tailless
  spell : ∃ ts, spell b.scopes events = some ts ∧ ts.foldl Token.push b.written = b'.written
  level : b'.opened.length = events.foldl Event.level b.opened.length
  begun : b'.begun = b.begun + rootCount b.opened.length events

/-- A run adds the tokens of all its events. -/
theorem takesAll_of_foldlM : ∀ {events : List Event} {b b' : Building},
    events.foldlM step b = .ok b' → b.Tailless → b.TakesAll events b'
  | [], b, b', h, hb => by
    cases h
    exact ⟨hb, ⟨[], rfl, rfl⟩, rfl, rfl⟩
  | e :: rest, b, b', h, hb => by
    rw [List.foldlM_cons] at h
    cases hstep : b.step e with
    | error f => rw [hstep] at h; cases h
    | ok mid =>
        rw [hstep] at h
        have htakes := takes_of_step hstep hb
        have hrest := takesAll_of_foldlM h htakes.tailless
        obtain ⟨ts, hspell, hwritten⟩ := htakes.spell
        obtain ⟨more, hmore, hall⟩ := hrest.spell
        refine ⟨hrest.tailless, ⟨ts ++ more, ?_, ?_⟩, ?_, ?_⟩
        · simp [Markup.spell, hspell, hmore]
        · rw [List.foldl_append, hwritten, hall]
        · rw [hrest.level, htakes.level, List.foldl_cons]
        · rw [hrest.begun, htakes.begun, htakes.level, rootCount, Nat.add_assoc]

end Building

end Markup

namespace Document

open Markup

/-- A document is the root of a building in which no element is open. -/
theorem ofReading_eq_ok {r : Reading} {d : Document} (h : ofReading r = .ok d) :
    ∃ root, d.root = some root ∧ ofEvents r.events = .ok ⟨some root, []⟩ := by
  unfold ofReading at h
  cases hrun : ofEvents r.events with
  | error f => rw [hrun] at h; cases h
  | ok b =>
      obtain ⟨root, opened⟩ := b
      simp only [hrun, bind, Except.bind] at h
      split at h
      · cases h
      · unfold Building.finish at h
        split at h
        · cases h
        · rename_i hopened
          obtain rfl : opened = [] := by simpa using hopened
          split at h
          · cases h
          · rename_i root' hroot
            obtain rfl : root = some root' := hroot
            cases h
            exact ⟨root', rfl, rfl⟩

/-- Behind a document every element was closed, and there was one outermost element. -/
theorem ofReading_ok {r : Reading} {d : Document} (h : ofReading r = .ok d) :
    (∃ root ts, d.root = some root ∧ root.tail = none ∧ spell [] r.events = some ts ∧
      Token.merged ts = root.tokens) ∧
      rootCount 0 r.events = 1 ∧ r.events.foldl Event.level 0 = 0 := by
  obtain ⟨root, hroot, hrun⟩ := ofReading_eq_ok h
  have htakes := Building.takesAll_of_foldlM hrun (fun x hx => absurd hx List.not_mem_nil)
  obtain ⟨ts, hspell, hwritten⟩ := htakes.spell
  refine ⟨⟨root, ts, hroot, htakes.tailless root (by simp), hspell, ?_⟩, ?_, ?_⟩
  · simpa [Token.merged, Building.written, Building.openTokens, Building.start] using hwritten
  · simpa [Building.begun, Building.start] using htakes.begun.symm
  · exact htakes.level.symm

/-- The tokens of a document are those of its events. Events without an element, with a second
outermost one or with one that is still open stand for no document. -/
theorem ofReading_spells (r : Reading) :
    (∀ d, ofReading r = .ok d → ∃ root ts, d.root = some root ∧ root.tail = none ∧
      spell [] r.events = some ts ∧ Token.merged ts = root.tokens) ∧
      (rootCount 0 r.events ≠ 1 ∨ r.events.foldl Event.level 0 ≠ 0 →
        ∃ failure, ofReading r = .error failure) := by
  refine ⟨fun d h => (ofReading_ok h).1, fun hfaulty => ?_⟩
  cases hread : ofReading r with
  | error failure => exact ⟨failure, rfl⟩
  | ok d =>
      obtain ⟨-, hroots, hlevel⟩ := ofReading_ok hread
      exact absurd hfaulty (by simp [hroots, hlevel])

/-- Mixed content with a comment in a piece of text, and an element that is not closed. -/
theorem ofReading_spells_sample :
    (∃ d root ts, parse (Text.octets "<p>a <b>c</b> d<!-- e --> f<i/></p>") = .ok d ∧
      d.root = some root ∧ spell []
        (scan (Text.octets "<p>a <b>c</b> d<!-- e --> f<i/></p>")).events = some ts ∧
      Token.merged ts = root.tokens) ∧
      ∃ failure, parse (Text.octets "<p><b></b>") = .error failure := by
  constructor
  · have hok : (parse (Text.octets "<p>a <b>c</b> d<!-- e --> f<i/></p>")).isOk = true := by
      decide +kernel
    cases h : parse (Text.octets "<p>a <b>c</b> d<!-- e --> f<i/></p>") with
    | error failure => rw [h] at hok; cases hok
    | ok d =>
        obtain ⟨root, ts, hroot, -, hspell, htokens⟩ := (ofReading_spells _).1 d h
        exact ⟨d, root, ts, rfl, hroot, hspell, htokens⟩
  · exact (ofReading_spells (scan (Text.octets "<p><b></b>"))).2 (.inr (by decide +kernel))

/-- The character data on both sides of a comment is one token. -/
example : (spell [] (scan (Text.octets "<p>a <b>c</b> d<!-- e --> f</p>")).events).map
    Token.merged = some
      [.opening ⟨.plain "p", ∅, Building.baseScope⟩, .text "a ",
        .opening ⟨.plain "b", ∅, Building.baseScope⟩, .text "c", .closing, .text " d f",
        .closing] := by
  decide +kernel

end Document

end Conform
