import TestMigration.Proofs.Grammar.Tidy

/-!
# The productions are tidy

One instance for each production of the grammar, in the order of the grammar. A production is tidy if the rules it is
given are, so the instances are found from one another.
-/

-- the search for instances follows the structure of a whole production
set_option synthInstance.maxSize 4000
set_option synthInstance.maxHeartbeats 200000

namespace TestMigration.Grammar

open Scan Scanner Tracked

variable {source : Text}

/-! ### Names and lists -/

instance name_tidy : Tidy source name true := by
  unfold name
  exact .takes

instance expressionName_tidy : Tidy source expressionName true := by
  unfold expressionName
  exact .takes

instance memberName_tidy : Tidy source memberName true := by
  unfold memberName
  exact .takes

instance stringLiteral_tidy : Tidy source stringLiteral true := by
  unfold stringLiteral
  exact .takes

instance numberLiteral_tidy : Tidy source numberLiteral true := by
  unfold numberLiteral
  exact .takes

instance commaSeparated_tidy (p : Scanner Node) {b : Bool} [Tidy source p b] :
    Tidy source (commaSeparated p) false := by
  unfold commaSeparated
  exact .weaken

instance commaSeparated1_tidy (p : Scanner Node) {b : Bool} [Tidy source p b] [Holds b] :
    Tidy source (commaSeparated1 p) true := by
  unfold commaSeparated1
  exact .takes

instance between_tidy {α : Type} [Tracked α] (opening closing : String) (p : Scanner α)
    {b : Bool} [Tidy source p b] :
    Tidy source (between opening closing p) true := by
  unfold between
  exact .takes

instance modifier_tidy (ws : List String) : Tidy source (modifier ws) true := by
  unfold modifier
  exact .takes

section
variable (g : Rules) [hg : ∀ goal, Tidy source (g goal) true]

instance spread_tidy : Tidy source (spread g) true := by
  unfold spread
  exact .takes

instance arguments_tidy : Tidy source (arguments g) true := by
  unfold arguments
  exact .takes

instance substitution_loose (content : Scanner Node) {b : Bool} [Tidy source content b] :
    Loose source (substitution content) where
  out := by
    intro s s' n hs h
    obtain ⟨⟨⟨taken, span⟩, s₁⟩, htoken, h⟩ := Option.bind_eq_some_iff.mp h
    obtain ⟨hstands, hleads⟩ := immediate_advance hs htoken
    obtain ⟨rest, htaken, -, rfl⟩ := immediate_eq htoken
    have hbegun := immediate_begun hs htoken (by rw [Lexeme.exactly_taken htaken]; decide)
    have hrest : TidyIn source s.pos s₁ (do
        let inner ← ending false content
        op "\x7d"
        close .substitution s.pos [inner]) true := .takes
    have hcome := hrest.out h
    exact ⟨hcome.stands, hleads.trans hcome.leads, hcome.start, hcome.done, hcome.row⟩

instance templateOf_tidy (kind : Kind) (content : Scanner Node) {b : Bool} [Tidy source content b]
    [Holds kind.isFree] : Tidy source (templateOf kind content) true := by
  unfold templateOf
  have hmark : Tidy source (mark "\x60") true := mark_takes (by decide)
  exact .takes

instance template_tidy : Tidy source (template g) true := by
  unfold template
  exact .takes

instance propertyName_tidy : Tidy source (propertyName g) true := by
  unfold propertyName
  exact .takes

/-! ### Types -/

instance typeMark_tidy : Tidy source (typeMark g) true := by
  unfold typeMark
  exact .takes

instance answered_subject_tidy : Tidy source answered.subject true := by
  unfold answered.subject
  exact .takes

instance answered_predicate_tidy : Tidy source (answered.predicate g) true := by
  unfold answered.predicate
  exact .takes

instance answered_assertion_tidy : Tidy source (answered.assertion g) true := by
  unfold answered.assertion
  exact .takes

instance answered_tidy : Tidy source (answered g) true := by
  unfold answered
  exact .takes

instance resultType_tidy : Tidy source (resultType g) true := by
  unfold resultType
  exact .takes

instance signature_tidy : Tidy source (signature g) true := by
  unfold signature
  exact .takes

instance typeParameters_parameter_tidy : Tidy source (typeParameters.parameter g) true := by
  unfold typeParameters.parameter
  exact .takes

instance typeParameters_tidy : Tidy source (typeParameters g) true := by
  unfold typeParameters
  exact .takes

instance typeArguments_tidy : Tidy source (typeArguments g) true := by
  unfold typeArguments
  exact .takes

instance typeQuery_imported_tidy : Tidy source (typeQuery.imported g) true := by
  unfold typeQuery.imported
  exact .takes

instance typeQuery_step_tidy (e : Node) {k : Nat} {s hi : Scan} [s.Stands source]
    [s.Ready source k] [From k e] [DoneAt source hi e] [hi.Leads s] : TidyIn source k s (typeQuery.step g e) true := by
  unfold typeQuery.step
  exact .takes

instance typeQuery_tidy : Tidy source (typeQuery g) true := by
  unfold typeQuery
  exact .takes

instance namedType_tidy : Tidy source (namedType g) true := by
  unfold namedType
  dsimp only
  exact .takes

instance tupleItem_tidy : Tidy source (tupleItem g) true := by
  unfold tupleItem
  exact .takes

instance mappedSign_tidy : Tidy source mappedSign true := by
  unfold mappedSign
  exact .takes

instance indexSignature_mapped_tidy : Tidy source (indexSignature.mapped g) true := by
  unfold indexSignature.mapped
  exact .takes

instance indexSignature_index_tidy : Tidy source (indexSignature.index g) true := by
  unfold indexSignature.index
  exact .takes

instance indexSignature_tidy : Tidy source (indexSignature g) true := by
  unfold indexSignature
  exact .takes

instance typeMember_tidy : Tidy source (typeMember g) true := by
  unfold typeMember
  exact .takes

instance objectType_member_tidy : Tidy source (objectType.member g) true := by
  unfold objectType.member
  exact .takes

instance objectType_tidy : Tidy source (objectType g) true := by
  unfold objectType
  exact .takes

instance primaryType_word_tidy : Tidy source (do
    match ← peekWord with
    | "typeof" => node .type do keyword "typeof"; return [← typeQuery g]
    | "import" => node .type do return [← typeQuery g]
    | "" => failure
    | _ => namedType g) true := by
  refine .peekWord fun w => ?_
  split <;> exact .takes

instance primaryType_tidy : Tidy source (primaryType g) true := by
  unfold primaryType
  refine .peekChar fun c => ?_
  split <;> exact .takes

instance arrayType_step_tidy (t : Node) {k : Nat} {s hi : Scan} [s.Stands source]
    [s.Ready source k] [From k t] [DoneAt source hi t] [hi.Leads s] : TidyIn source k s (arrayType.step g t) true := by
  unfold arrayType.step
  exact .takes

instance arrayType_tidy : Tidy source (arrayType g) true := by
  unfold arrayType
  exact .takes

instance typeOperator_tidy (n : Nat) : Tidy source (typeOperator g n) true := by
  induction n with
  | zero =>
    unfold typeOperator
    exact .takes
  | succ n ih =>
    unfold typeOperator
    exact .takes

instance joinedType_tidy (sign : String) (p : Scanner Node) {b : Bool} [Tidy source p b] [Holds b] :
    Tidy source (joinedType sign p) true := by
  unfold joinedType
  exact .takes

instance functionType_tidy : Tidy source (functionType g) true := by
  unfold functionType
  exact .takes

instance type_conditional_tidy (start : Nat) (t : Node) {s hi : Scan} [s.Stands source] [s.Begun source start]
    [From start t] [DoneAt source hi t] [hi.Leads s] : TidyIn source start s (type.conditional g start t) true := by
  unfold type.conditional
  exact .takes

instance type_tidy : Tidy source (type g) true := by
  unfold type
  exact .takes

/-! ### Patterns and parameters -/

instance initializer_tidy : Tidy source (initializer g) true := by
  unfold initializer
  exact .takes

instance target_step_tidy (e : Node) {k : Nat} {s hi : Scan} [s.Stands source]
    [s.Ready source k] [From k e] [DoneAt source hi e] [hi.Leads s] : TidyIn source k s (target.step g e) true := by
  unfold target.step
  exact .takes

instance target_tidy : Tidy source (target g) true := by
  unfold target
  exact .takes

instance withDefault_tidy (p : Scanner Node) {b : Bool} [Tidy source p b] [Holds b] :
    Tidy source (withDefault g p) true := by
  unfold withDefault
  exact .takes

instance restPattern_tidy : Tidy source (restPattern g) true := by
  unfold restPattern
  exact .takes

instance patternMember_tidy : Tidy source (patternMember g) true := by
  unfold patternMember
  exact .takes

instance pattern_tidy : Tidy source (pattern g) true := by
  unfold pattern
  exact .takes

instance decorator_step_tidy (e : Node) {k : Nat} {s hi : Scan} [s.Stands source]
    [s.Ready source k] [From k e] [DoneAt source hi e] [hi.Leads s] : TidyIn source k s (decorator.step g e) true := by
  unfold decorator.step
  exact .takes

instance decorator_tidy : Tidy source (decorator g) true := by
  unfold decorator
  exact .takes

instance binding_tidy : Tidy source (binding g) true := by
  unfold binding
  exact .takes

instance parameter_tidy : Tidy source (parameter g) true := by
  unfold parameter
  exact .takes

instance parameters_tidy : Tidy source (parameters g) true := by
  unfold parameters
  exact .takes

/-! ### Functions, classes and literals -/

instance asyncBefore_tidy {α : Type} (next : Scanner α) : Tidy source (asyncBefore next) true := by
  unfold asyncBefore
  exact .takes

instance functionExpression_tidy : Tidy source (functionExpression g) true := by
  unfold functionExpression
  exact .takes

instance arrowFunction_single_tidy : Tidy source arrowFunction.single true := by
  unfold arrowFunction.single
  exact .takes

instance arrowFunction_tidy : Tidy source (arrowFunction g) true := by
  unfold arrowFunction
  exact .takes

instance heritage_tidy : Tidy source (heritage g) false := by
  unfold heritage
  exact .weaken

instance classRest_className_tidy : Tidy source classRest.className true := by
  unfold classRest.className
  exact .takes

instance classRest_tidy (named : Bool) : Tidy source (classRest g named) true := by
  unfold classRest
  exact .takes

instance classExpression_tidy : Tidy source (classExpression g) true := by
  unfold classExpression
  exact .takes

instance objectMethod_tidy : Tidy source (objectMethod g) true := by
  unfold objectMethod
  exact .takes

instance objectMember_tidy : Tidy source (objectMember g) true := by
  unfold objectMember
  exact .takes

instance objectLiteral_tidy : Tidy source (objectLiteral g) true := by
  unfold objectLiteral
  exact .takes

instance arrayLiteral_tidy : Tidy source (arrayLiteral g) true := by
  unfold arrayLiteral
  exact .takes

instance patternAssignment_tidy : Tidy source (patternAssignment g) true := by
  unfold patternAssignment
  exact .takes

instance literalOrTarget_tidy (literal : Scanner Node) {b : Bool} [Tidy source literal b] [Holds b] :
    Tidy source (literalOrTarget g literal) true := by
  unfold literalOrTarget
  exact .takes

/-! ### Operands -/

instance parenthesized_tidy : Tidy source (parenthesized g) true := by
  unfold parenthesized
  exact .takes

instance memberStep_tidy (e : Node) {k : Nat} {s hi : Scan} [s.Stands source]
    [s.Ready source k] [From k e] [DoneAt source hi e] [hi.Leads s] : TidyIn source k s (memberStep g e) true := by
  unfold memberStep
  exact .takes

instance construction_tidy : Tidy source (construction g) true := by
  unfold construction
  exact .takes

instance importExpression_tidy : Tidy source importExpression true := by
  unfold importExpression
  exact .takes

instance wordExpression_tidy : Tidy source (wordExpression g) true := by
  unfold wordExpression
  refine .peekWord fun w => ?_
  split <;> exact .takes

instance primary_tidy : Tidy source (primary g) true := by
  unfold primary
  refine .peekChar fun c => ?_
  split <;> exact .takes

instance postfixStep_goesOnNot_tidy : Tidy source postfixStep.goesOnNot false := by
  unfold postfixStep.goesOnNot
  exact .weaken

instance postfixStep_closes_tidy : Tidy source postfixStep.closes false := by
  unfold postfixStep.closes
  refine .peekChar fun c => ?_
  split <;> exact .weaken

instance postfixStep_tidy (e : Node) {k : Nat} {s hi : Scan} [s.Stands source]
    [s.Ready source k] [From k e] [DoneAt source hi e] [hi.Leads s] : TidyIn source k s (postfixStep g e) true := by
  unfold postfixStep
  exact .takes

instance chained_tidy : Tidy source (chained g) true := by
  unfold chained
  exact .takes

instance constructed_tidy : Tidy source (constructed g) true := by
  unfold constructed
  exact .takes

/-! ### Operators -/

instance assignTo_tidy (e : Node) {k : Nat} {s hi : Scan} [s.Stands source]
    [s.Ready source k] [From k e] [DoneAt source hi e] [hi.Leads s] : TidyIn source k s (assignTo g e) true := by
  unfold assignTo
  exact .takes

instance updateAfter_tidy (e : Node) {k : Nat} {s hi : Scan} [s.Stands source]
    [s.Ready source k] [From k e] [DoneAt source hi e] [hi.Leads s] : TidyIn source k s (updateAfter e) true := by
  unfold updateAfter
  exact .takes

instance prefixed_tidy : Tidy source (prefixed g) true := by
  unfold prefixed
  exact .takes

instance typeAssertion_tidy : Tidy source (typeAssertion g) true := by
  unfold typeAssertion
  exact .takes

instance yielded_tidy : Tidy source (yielded g) true := by
  unfold yielded
  exact .takes

instance typeClaim_tidy (e : Node) {k : Nat} {s hi : Scan} [s.Stands source]
    [s.Ready source k] [From k e] [DoneAt source hi e] [hi.Leads s] : TidyIn source k s (typeClaim g e) true := by
  unfold typeClaim
  exact .takes

instance operand_tidy : Tidy source (operand g) true := by
  unfold operand
  refine .peekWord fun w => ?_
  split <;> exact .takes

instance binaryOperator_tidy : Tidy source binaryOperator true := by
  unfold binaryOperator
  have hmatch (text : String) : Tidy source (match bindingStrength text with
      | some n => pure (text, n)
      | none => failure : Scanner (String × Nat)) false := by
    split <;> exact .weaken
  exact .takes

instance binaryStep_tidy (least : Nat) (l : Node) {k : Nat} {s hi : Scan} [s.Stands source]
    [s.Ready source k] [From k l] [DoneAt source hi l] [hi.Leads s] : TidyIn source k s (binaryStep g least l) true := by
  unfold binaryStep
  exact .takes

instance binary_tidy (least : Nat) : Tidy source (binary g least) true := by
  unfold binary
  exact .takes

instance questionMark_tidy : Tidy source questionMark true := by
  unfold questionMark
  have hmatch (c : Option Char) : Tidy source (match c with
      | some c => guard (!":),".toList.contains c)
      | none => return () : Scanner Unit) false := by
    split <;> exact .weaken
  exact .takes

instance firstChoice_tidy : Tidy source (firstChoice g) true := by
  have hchoice : Tidy source (do
      let e ← g .expression
      op ":"
      return e) true := .takes
  have hagain : Tidy source (do
      modify fun s => { s with bareArrows := true }
      let e ← g .expression
      op ":"
      modify fun s => { s with bareArrows := false }
      return e) true := by
    refine ⟨fun hs h => ?_⟩
    obtain ⟨⟨e, s₁⟩, he, h⟩ := Option.bind_eq_some_iff.mp h
    obtain ⟨⟨_, s₂⟩, hop, h⟩ := Option.bind_eq_some_iff.mp h
    cases h
    refine hchoice.flagged hs ⟨_, _, _, rfl⟩ (Option.bind_eq_some_iff.mpr ⟨_, he, ?_⟩) ⟨_, _, _, rfl⟩
    exact Option.bind_eq_some_iff.mpr ⟨_, hop, rfl⟩
  unfold firstChoice
  exact .takes

instance expression_tidy : Tidy source (expression g) true := by
  unfold expression
  exact .takes

instance expressions_tidy : Tidy source (expressions g) true := by
  unfold expressions
  exact .takes

/-! ### Class bodies and markup -/

instance staticBlock_tidy : Tidy source (staticBlock g) true := by
  unfold staticBlock
  exact .takes

instance classMethod_tidy : Tidy source (classMethod g) true := by
  unfold classMethod
  exact .takes

instance methodSignature_tidy : Tidy source (methodSignature g) true := by
  unfold methodSignature
  exact .takes

instance field_tidy : Tidy source (field g) true := by
  unfold field
  exact .takes

instance classMember_tidy : Tidy source (classMember g) true := by
  unfold classMember
  exact .takes

instance classBody_tidy : Tidy source (classBody g) true := by
  unfold classBody
  exact .takes

instance elementName_step_tidy (e : Node) {k : Nat} {s hi : Scan} [s.Stands source]
    [s.Ready source k] [From k e] [DoneAt source hi e] [hi.Leads s] : TidyIn source k s (elementName.step e) true := by
  unfold elementName.step
  exact .takes

instance elementName_tidy : Tidy source elementName true := by
  unfold elementName
  exact .takes

instance embedded_tidy : Tidy source (embedded g) true := by
  unfold embedded
  exact .takes

instance elementAttribute_tidy : Tidy source (elementAttribute g) true := by
  unfold elementAttribute
  exact .takes

instance content_loose : Loose source (content g) := by
  unfold content
  infer_instance

instance element_selfClosed_tidy (head : Option Node) (opening : List Node) {k : Nat} {s hi : Scan} [s.Stands source]
    [s.Ready source k] [From k opening] [DoneAt source hi opening] [hi.Leads s] [Rowed source opening] :
    TidyIn source k s (element.selfClosed head opening) true := by
  unfold element.selfClosed
  exact .takes

instance element_tidy : Tidy source (element g) true := by
  unfold element
  dsimp only
  refine @node_tidy _ true _ _ (.of_in rfl fun s => (op_tidy "<").bind (c := true) fun _ =>
    (optional_tidy elementName).bind (c := true) fun head => ?_) _ _
  -- without a name there are neither type arguments nor attributes
  split <;> split <;> exact .takes

/-! ### Declarations -/

instance lastExpressions_tidy : Tidy source (lastExpressions g) true := by
  unfold lastExpressions
  exact .takes

instance block_tidy : Tidy source (block g) true := by
  unfold block
  exact .takes

instance declarator_tidy : Tidy source (declarator g) true := by
  unfold declarator
  exact .takes

instance declares_tidy (kind : Kind) (ws : List String) [Holds kind.isFree] :
    Tidy source (declares g kind ws) true := by
  unfold declares
  dsimp only
  exact .takes

instance variableStatement_tidy : Tidy source (variableStatement g) true := by
  unfold variableStatement
  exact .takes

instance functionStatement_tidy : Tidy source (functionStatement g) true := by
  unfold functionStatement
  dsimp only
  exact .takes

instance classStatement_tidy : Tidy source (classStatement g) true := by
  unfold classStatement
  exact .takes

instance typeAlias_tidy : Tidy source (typeAlias g) true := by
  unfold typeAlias
  exact .takes

instance interface_tidy : Tidy source (interface g) true := by
  unfold interface
  exact .takes

instance enumeration_tidy : Tidy source (enumeration g) true := by
  unfold enumeration
  exact .takes

instance moduleStatement_tidy : Tidy source (moduleStatement g) true := by
  unfold moduleStatement
  dsimp only
  refine @node_tidy _ true _ _ (.of_in rfl fun s => (oneOf_tidy _).bind fun _ => Tidy.bind (b := true) .takes fun n =>
    (optional_tidy (g .block)).bind (c := false) fun b => ?_) _ _
  split <;> exact .weaken

instance importAlias_tidy : Tidy source importAlias true := by
  unfold importAlias
  exact .takes

instance ownDeclaration_tidy : Tidy source (ownDeclaration g) true := by
  unfold ownDeclaration
  exact .takes

instance declarationGo_tidy (n : Nat) : Tidy source (declarationGo g n) true := by
  induction n with
  | zero =>
    unfold declarationGo
    exact .takes
  | succ n ih =>
    unfold declarationGo
    exact .takes

instance declaration_tidy : Tidy source (declaration g) true := by
  unfold declaration
  exact .takes

/-! ### Imports and exports -/

instance exportedName_tidy : Tidy source exportedName true := by
  unfold exportedName
  exact .takes

instance importSpecifier_tidy : Tidy source importSpecifier true := by
  unfold importSpecifier
  exact .takes

instance namedImports_tidy : Tidy source namedImports true := by
  unfold namedImports
  exact .takes

instance namespaceImport_tidy : Tidy source namespaceImport true := by
  unfold namespaceImport
  exact .takes

instance importClause_tidy : Tidy source importClause true := by
  unfold importClause
  exact .takes

instance fromModule_tidy : Tidy source fromModule true := by
  unfold fromModule
  exact .takes

instance importAttributes_tidy : Tidy source (importAttributes g) true := by
  unfold importAttributes
  exact .takes

instance importStatement_bare_tidy : Tidy source importStatement.bare true := by
  unfold importStatement.bare
  exact .takes

instance importStatement_required_tidy : Tidy source importStatement.required true := by
  unfold importStatement.required
  exact .takes

instance importStatement_bound_tidy : Tidy source importStatement.bound true := by
  unfold importStatement.bound
  exact .takes

instance importStatement_typed_tidy : Tidy source importStatement.typed true := by
  unfold importStatement.typed
  exact .takes

instance importStatement_tidy : Tidy source (importStatement g) true := by
  unfold importStatement
  exact .takes

instance exportClause_tidy : Tidy source exportClause true := by
  unfold exportClause
  exact .takes

instance exported_value_tidy : Tidy source (exported.value g) true := by
  unfold exported.value
  exact .takes

instance exported_tidy : Tidy source (exported g) true := by
  unfold exported
  exact .takes

instance exportStatement_tidy : Tidy source (exportStatement g) true := by
  unfold exportStatement
  exact .takes

/-! ### Control flow -/

instance condition_tidy : Tidy source (condition g) true := by
  unfold condition
  exact .takes

instance ifStatement_tidy : Tidy source (ifStatement g) true := by
  unfold ifStatement
  exact .takes

instance switchCase_tidy : Tidy source (switchCase g) true := by
  unfold switchCase
  exact .takes

instance switchStatement_tidy : Tidy source (switchStatement g) true := by
  unfold switchStatement
  exact .takes

instance forEach_declared_tidy : Tidy source (forEach.declared g) true := by
  unfold forEach.declared
  exact .takes

instance forEach_tidy : Tidy source (forEach g) true := by
  unfold forEach
  exact .takes

instance forCount_tidy : Tidy source (forCount g) true := by
  unfold forCount
  exact .takes

instance whileStatement_tidy (w : String) : Tidy source (whileStatement g w) true := by
  unfold whileStatement
  exact .takes

instance doStatement_tidy : Tidy source (doStatement g) true := by
  unfold doStatement
  exact .takes

instance tryStatement_tidy : Tidy source (tryStatement g) true := by
  unfold tryStatement
  exact .takes

instance jump_tidy (w : String) : Tidy source (jump w) true := by
  unfold jump
  exact .takes

instance returnStatement_tidy : Tidy source (returnStatement g) true := by
  unfold returnStatement
  exact .takes

instance throwStatement_tidy : Tidy source (throwStatement g) true := by
  unfold throwStatement
  exact .takes

instance labeled_tidy : Tidy source (labeled g) true := by
  unfold labeled
  exact .takes

instance expressionStatement_tidy : Tidy source (expressionStatement g) true := by
  unfold expressionStatement
  exact .takes

instance braced_tidy : Tidy source (braced g) true := by
  unfold braced
  exact .takes

instance statement_tidy : Tidy source (statement g) true := by
  unfold statement
  refine .peekChar fun c => ?_
  split
  case h_4 =>
    refine .peekWord fun w => ?_
    split <;> exact .takes
  all_goals exact .takes

end

end TestMigration.Grammar
