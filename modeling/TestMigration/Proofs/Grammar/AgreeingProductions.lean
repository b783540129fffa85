import TestMigration.Proofs.Grammar.Agreement

/-!
# The productions agree

One instance for each production of the grammar, in the order of the grammar: two assignments of scanners to goals
that agree make productions that agree. A production that asks for a goal at its beginning has to stand at a rank
above.
-/

-- the search for instances follows the structure of a whole production
set_option synthInstance.maxSize 4000
set_option synthInstance.maxHeartbeats 200000

namespace TestMigration.Grammar

open Scan Scanner Tracked

variable {M : Nat} {F : Frame} {st : Progress}

/-! ### Names and lists -/

instance name_agrees : Agrees M F st name name true := by
  unfold name
  exact .takes

instance expressionName_agrees : Agrees M F st expressionName expressionName true := by
  unfold expressionName
  exact .takes

instance memberName_agrees : Agrees M F st memberName memberName true := by
  unfold memberName
  exact .takes

instance stringLiteral_agrees : Agrees M F st stringLiteral stringLiteral true := by
  unfold stringLiteral
  exact .takes

instance numberLiteral_agrees : Agrees M F st numberLiteral numberLiteral true := by
  unfold numberLiteral
  exact .takes

instance commaSeparated_agrees (p p' : Scanner Node) {b c : Bool} [Agrees M F st p p' b]
    [Agrees M F .free p p' c] : Agrees M F st (commaSeparated p) (commaSeparated p') false := by
  unfold commaSeparated
  exact .weaken

instance commaSeparated1_agrees (p p' : Scanner Node) {b c : Bool} [Agrees M F st p p' b]
    [Agrees M F .free p p' c] [Holds b] : Agrees M F st (commaSeparated1 p) (commaSeparated1 p') true := by
  unfold commaSeparated1
  exact .takes

instance between_agrees {α : Type} [Movable α] (opening closing : String) (p p' : Scanner α)
    {b : Bool} [Agrees M F .free p p' b] :
    Agrees M F st (between opening closing p) (between opening closing p') true := by
  unfold between
  exact .takes

instance beginsName_agrees : Agrees M F st beginsName beginsName false := by
  unfold beginsName
  refine .bind_fixed (b := false) inferInstance fun c => ?_
  split <;> exact .weaken

instance modifier_agrees (ws : List String) : Agrees M F st (modifier ws) (modifier ws) true := by
  unfold modifier
  exact .takes

section
variable (g g' : Rules) [hg : Rules.Agree M F g g']

instance spread_agrees : Agrees M F st (spread g) (spread g') true := by
  unfold spread
  exact .takes

instance arguments_agrees : Agrees M F st (arguments g) (arguments g') true := by
  unfold arguments
  exact .takes

instance substitution_agrees (content content' : Scanner Node) {b : Bool} [st.Free]
    [Agrees M F st content content' b] :
    Agrees M F st (substitution content) (substitution content') true := by
  unfold substitution
  exact .takes

instance templateOf_agrees (kind : Kind) (content content' : Scanner Node) {b : Bool}
    [Agrees M F .free content content' b] :
    Agrees M F st (templateOf kind content) (templateOf kind content') true := by
  unfold templateOf
  exact .takes

instance template_agrees : Agrees M F st (template g) (template g') true := by
  unfold template
  exact .takes

instance propertyName_agrees : Agrees M F st (propertyName g) (propertyName g') true := by
  unfold propertyName
  exact .takes

/-! ### Types -/

instance typeMark_agrees : Agrees M F st (typeMark g) (typeMark g') true := by
  unfold typeMark
  exact .takes

instance answered_subject_agrees : Agrees M F st answered.subject answered.subject true := by
  unfold answered.subject
  exact .takes

instance answered_predicate_agrees : Agrees M F st (answered.predicate g) (answered.predicate g') true := by
  unfold answered.predicate
  exact .takes

instance answered_assertion_agrees : Agrees M F st (answered.assertion g) (answered.assertion g') true := by
  unfold answered.assertion
  exact .takes

instance answered_agrees [st.Below 1] : Agrees M F st (answered g) (answered g') true := by
  unfold answered
  exact .takes

instance resultType_agrees : Agrees M F st (resultType g) (resultType g') true := by
  unfold resultType
  refine .get fun s s' hs => ?_
  rw [hs.sameFlags.bareArrows]
  exact .takes

instance signature_agrees [st.Below 0] : Agrees M F st (signature g) (signature g') true := by
  unfold signature
  exact .takes

instance typeParameters_parameter_agrees :
    Agrees M F st (typeParameters.parameter g) (typeParameters.parameter g') true := by
  unfold typeParameters.parameter
  exact .takes

instance typeParameters_agrees : Agrees M F st (typeParameters g) (typeParameters g') true := by
  unfold typeParameters
  exact .takes

instance typeArguments_agrees : Agrees M F st (typeArguments g) (typeArguments g') true := by
  unfold typeArguments
  exact .takes

instance typeQuery_imported_agrees : Agrees M F st (typeQuery.imported g) (typeQuery.imported g') true := by
  unfold typeQuery.imported
  exact .takes

instance typeQuery_step_agrees (e e' : Node) [Like F e e'] [st.Below 0] :
    Agrees M F st (typeQuery.step g e) (typeQuery.step g' e') true := by
  unfold typeQuery.step
  exact .takes

instance typeQuery_agrees : Agrees M F st (typeQuery g) (typeQuery g') true := by
  unfold typeQuery
  exact .takes

instance namedType_agrees : Agrees M F st (namedType g) (namedType g') true := by
  unfold namedType
  dsimp only
  exact .takes

instance tupleItem_agrees [st.Below 1] : Agrees M F st (tupleItem g) (tupleItem g') true := by
  unfold tupleItem
  exact .takes

instance mappedSign_agrees : Agrees M F st mappedSign mappedSign true := by
  unfold mappedSign
  exact .takes

instance indexSignature_mapped_agrees : Agrees M F st (indexSignature.mapped g) (indexSignature.mapped g') true := by
  unfold indexSignature.mapped
  exact .takes

instance indexSignature_index_agrees : Agrees M F st (indexSignature.index g) (indexSignature.index g') true := by
  unfold indexSignature.index
  exact .takes

instance indexSignature_agrees : Agrees M F st (indexSignature g) (indexSignature g') true := by
  unfold indexSignature
  exact .takes

instance typeMember_agrees [st.Below 0] : Agrees M F st (typeMember g) (typeMember g') true := by
  unfold typeMember
  exact .takes

instance objectType_member_agrees [st.Below 0] :
    Agrees M F st (objectType.member g) (objectType.member g') true := by
  unfold objectType.member
  exact .takes

instance objectType_agrees : Agrees M F st (objectType g) (objectType g') true := by
  unfold objectType
  exact .takes

instance primaryType_word_agrees : Agrees M F st (do
    match ← peekWord with
    | "typeof" => node .type do keyword "typeof"; return [← typeQuery g]
    | "import" => node .type do return [← typeQuery g]
    | "" => failure
    | _ => namedType g) (do
    match ← peekWord with
    | "typeof" => node .type do keyword "typeof"; return [← typeQuery g']
    | "import" => node .type do return [← typeQuery g']
    | "" => failure
    | _ => namedType g') true := by
  refine .bind_fixed (b := false) inferInstance fun w => ?_
  split <;> exact .takes

instance primaryType_agrees : Agrees M F st (primaryType g) (primaryType g') true := by
  unfold primaryType
  refine .bind_fixed (b := false) inferInstance fun c => ?_
  split <;> exact .takes

instance arrayType_step_agrees (t t' : Node) [st.Free] [Like F t t'] :
    Agrees M F st (arrayType.step g t) (arrayType.step g' t') true := by
  unfold arrayType.step
  exact .takes

instance arrayType_agrees : Agrees M F st (arrayType g) (arrayType g') true := by
  unfold arrayType
  exact .takes

instance typeOperator_agrees (n : Nat) : Agrees M F st (typeOperator g n) (typeOperator g' n) true := by
  induction n generalizing st with
  | zero =>
    unfold typeOperator
    exact .takes
  | succ n ih =>
    unfold typeOperator
    exact .takes

instance joinedType_agrees (sign : String) (p p' : Scanner Node) {b c : Bool} [Agrees M F st p p' b]
    [Agrees M F .free p p' c] [Holds b] :
    Agrees M F st (joinedType sign p) (joinedType sign p') true := by
  unfold joinedType
  exact .takes

instance functionType_agrees [st.Below 0] : Agrees M F st (functionType g) (functionType g') true := by
  unfold functionType
  exact .takes

instance type_conditional_agrees (start start' : Nat) (t t' : Node) [st.Free] [Like F start start']
    [Like F t t'] : Agrees M F st (type.conditional g start t) (type.conditional g' start' t') true := by
  unfold type.conditional
  exact .takes

instance type_agrees [st.Below 0] : Agrees M F st (type g) (type g') true := by
  unfold type
  exact .takes

/-! ### Patterns and parameters -/

instance initializer_agrees : Agrees M F st (initializer g) (initializer g') true := by
  unfold initializer
  exact .takes

instance target_step_agrees (e e' : Node) [Like F e e'] :
    Agrees M F st (target.step g e) (target.step g' e') true := by
  unfold target.step
  exact .takes

instance target_agrees : Agrees M F st (target g) (target g') true := by
  unfold target
  exact .takes

instance withDefault_agrees (p p' : Scanner Node) {b : Bool} [Agrees M F st p p' b] [Holds b] :
    Agrees M F st (withDefault g p) (withDefault g' p') true := by
  unfold withDefault
  exact .takes

instance restPattern_agrees : Agrees M F st (restPattern g) (restPattern g') true := by
  unfold restPattern
  exact .takes

instance patternMember_agrees : Agrees M F st (patternMember g) (patternMember g') true := by
  unfold patternMember
  exact .takes

instance pattern_agrees : Agrees M F st (pattern g) (pattern g') true := by
  unfold pattern
  exact .takes

instance decorator_step_agrees (e e' : Node) [Like F e e'] [st.Below 0] :
    Agrees M F st (decorator.step g e) (decorator.step g' e') true := by
  unfold decorator.step
  exact .takes

instance decorator_agrees : Agrees M F st (decorator g) (decorator g') true := by
  unfold decorator
  exact .takes

instance binding_agrees [st.Below 0] : Agrees M F st (binding g) (binding g') true := by
  unfold binding
  refine (Agrees.bind (b := true) (c := false) inferInstance fun q => ?_).takes
  rw [Like.kind q.like]
  infer_instance

instance parameter_agrees [st.Below 0] : Agrees M F st (parameter g) (parameter g') true := by
  unfold parameter
  exact .takes

instance parameters_agrees : Agrees M F st (parameters g) (parameters g') true := by
  unfold parameters
  exact .takes

/-! ### Functions, classes and literals -/

instance asyncBefore_agrees {α : Type} [Movable α] (next next' : Scanner α) {b : Bool}
    [Agrees M F .free next next' b] : Agrees M F st (asyncBefore next) (asyncBefore next') true := by
  unfold asyncBefore
  exact .takes

instance functionExpression_agrees : Agrees M F st (functionExpression g) (functionExpression g') true := by
  unfold functionExpression
  exact .takes

instance arrowFunction_single_agrees : Agrees M F st arrowFunction.single arrowFunction.single true := by
  unfold arrowFunction.single
  exact .takes

instance arrowFunction_agrees [st.Below 0] : Agrees M F st (arrowFunction g) (arrowFunction g') true := by
  unfold arrowFunction
  exact .takes

instance heritage_agrees : Agrees M F st (heritage g) (heritage g') false := by
  unfold heritage
  exact .weaken

instance classRest_className_agrees : Agrees M F st classRest.className classRest.className true := by
  unfold classRest.className
  exact .takes

instance classRest_agrees (named : Bool) [st.Below 0] :
    Agrees M F st (classRest g named) (classRest g' named) true := by
  unfold classRest
  exact .takes

instance classExpression_agrees : Agrees M F st (classExpression g) (classExpression g') true := by
  unfold classExpression
  exact .takes

instance objectMethod_agrees : Agrees M F st (objectMethod g) (objectMethod g') true := by
  unfold objectMethod
  exact .takes

instance objectMember_agrees : Agrees M F st (objectMember g) (objectMember g') true := by
  unfold objectMember
  exact .takes

instance objectLiteral_agrees : Agrees M F st (objectLiteral g) (objectLiteral g') true := by
  unfold objectLiteral
  exact .takes

instance arrayLiteral_agrees : Agrees M F st (arrayLiteral g) (arrayLiteral g') true := by
  unfold arrayLiteral
  exact .takes

instance patternAssignment_agrees [st.Below 0] :
    Agrees M F st (patternAssignment g) (patternAssignment g') true := by
  unfold patternAssignment
  exact .takes

instance literalOrTarget_agrees (literal literal' : Scanner Node) {b : Bool} [st.Below 0]
    [Agrees M F st literal literal' b] [Holds b] :
    Agrees M F st (literalOrTarget g literal) (literalOrTarget g' literal') true := by
  unfold literalOrTarget
  exact .takes

/-! ### Operands -/

instance parenthesized_agrees : Agrees M F st (parenthesized g) (parenthesized g') true := by
  unfold parenthesized
  exact .takes

instance memberStep_agrees (e e' : Node) [Like F e e'] :
    Agrees M F st (memberStep g e) (memberStep g' e') true := by
  unfold memberStep
  exact .takes

instance construction_agrees : Agrees M F st (construction g) (construction g') true := by
  unfold construction
  exact .takes

instance importExpression_agrees : Agrees M F st importExpression importExpression true := by
  unfold importExpression
  exact .takes

instance wordExpression_agrees [st.Below 0] : Agrees M F st (wordExpression g) (wordExpression g') true := by
  unfold wordExpression
  refine .bind_fixed (b := false) inferInstance fun w => ?_
  split <;> exact .takes

instance primary_agrees [st.Below 0] : Agrees M F st (primary g) (primary g') true := by
  have hmarkup : Agrees M F st (do guard (← get).markup; g .element) (do guard (← get).markup; g' .element)
      true := by
    refine .get fun s s' hs => ?_
    rw [hs.sameFlags.markup]
    exact .takes
  unfold primary
  refine .bind_fixed (b := false) inferInstance fun c => ?_
  split <;> exact .takes

instance postfixStep_goesOnNot_agrees [st.Free] :
    Agrees M F st postfixStep.goesOnNot postfixStep.goesOnNot false := by
  unfold postfixStep.goesOnNot
  refine .get fun s s' hs => ?_
  rw [hs.sameFlags.endable, hs.matches.statementEnd?_isSome]
  infer_instance

instance postfixStep_closes_agrees [st.Free] : Agrees M F st postfixStep.closes postfixStep.closes false := by
  unfold postfixStep.closes
  refine .bind_fixed (b := false) inferInstance fun c => ?_
  split <;> exact .weaken

instance postfixStep_agrees (e e' : Node) [st.Free] [Like F e e'] :
    Agrees M F st (postfixStep g e) (postfixStep g' e') true := by
  unfold postfixStep
  exact .takes

instance chained_agrees [st.Below 0] : Agrees M F st (chained g) (chained g') true := by
  unfold chained
  exact .takes

instance constructed_agrees [st.Below 0] : Agrees M F st (constructed g) (constructed g') true := by
  unfold constructed
  exact .takes

/-! ### Operators -/

instance assignTo_agrees (e e' : Node) [st.Free] [Like F e e'] :
    Agrees M F st (assignTo g e) (assignTo g' e') true := by
  have he : Like F e e' := inferInstance
  unfold assignTo
  rw [Like.kind he.out]
  exact .takes

instance updateAfter_agrees (e e' : Node) [st.Free] [Like F e e'] :
    Agrees M F st (updateAfter e) (updateAfter e') true := by
  unfold updateAfter
  exact .takes

instance prefixed_agrees : Agrees M F st (prefixed g) (prefixed g') true := by
  unfold prefixed
  exact .takes

instance typeAssertion_agrees [st.Below 0] : Agrees M F st (typeAssertion g) (typeAssertion g') true := by
  unfold typeAssertion
  have hflag : Agrees M F st (do
      guard !(← get).markup
      let ts ← g .typeArguments
      return [ts, ← g .operand]) (do
      guard !(← get).markup
      let ts ← g' .typeArguments
      return [ts, ← g' .operand]) true := by
    refine .get fun s s' hs => ?_
    rw [hs.sameFlags.markup]
    exact .takes
  exact .takes

instance yielded_agrees : Agrees M F st (yielded g) (yielded g') true := by
  unfold yielded
  exact .takes

instance typeClaim_agrees (e e' : Node) [st.Free] [Like F e e'] :
    Agrees M F st (typeClaim g e) (typeClaim g' e') true := by
  unfold typeClaim
  exact .takes

instance operand_agrees : Agrees M F (.fresh 2) (operand g) (operand g') true := by
  unfold operand
  refine .bind_fixed (b := false) inferInstance fun w => ?_
  split <;> exact .takes

instance binaryOperator_agrees : Agrees M F st binaryOperator binaryOperator true := by
  unfold binaryOperator
  have hmatch (st : Progress) (text : String) : Agrees M F st
      (match bindingStrength text with
        | some n => pure (text, n)
        | none => failure : Scanner (String × Nat))
      (match bindingStrength text with
        | some n => pure (text, n)
        | none => failure) false := by
    split <;> exact .weaken
  exact .takes

instance binaryStep_agrees (least : Nat) (l l' : Node) [st.Free] [Like F l l'] :
    Agrees M F st (binaryStep g least l) (binaryStep g' least l') true := by
  unfold binaryStep
  exact .takes

instance binary_agrees (least : Nat) [st.Below 2] : Agrees M F st (binary g least) (binary g' least) true := by
  unfold binary
  exact .takes

instance questionMark_agrees : Agrees M F st questionMark questionMark true := by
  unfold questionMark
  have hmatch (st : Progress) (c : Option Char) : Agrees M F st
      (match c with
        | some c => guard (!":),".toList.contains c)
        | none => return () : Scanner Unit)
      (match c with
        | some c => guard (!":),".toList.contains c)
        | none => return ()) false := by
    split <;> exact .weaken
  exact .takes

instance firstChoice_agrees [st.Below 4] : Agrees M F st (firstChoice g) (firstChoice g') true := by
  unfold firstChoice
  exact .takes

instance expression_agrees [st.Below 3] : Agrees M F st (expression g) (expression g') true := by
  unfold expression
  exact .takes

instance expressions_agrees [st.Below 4] : Agrees M F st (expressions g) (expressions g') true := by
  unfold expressions
  exact .takes

/-! ### Class bodies and markup -/

instance staticBlock_agrees : Agrees M F st (staticBlock g) (staticBlock g') true := by
  unfold staticBlock
  exact .takes

instance classMethod_agrees : Agrees M F st (classMethod g) (classMethod g') true := by
  unfold classMethod
  exact .takes

instance methodSignature_agrees : Agrees M F st (methodSignature g) (methodSignature g') true := by
  unfold methodSignature
  exact .takes

instance field_agrees : Agrees M F st (field g) (field g') true := by
  unfold field
  exact .takes

instance classMember_agrees : Agrees M F st (classMember g) (classMember g') true := by
  unfold classMember
  exact .takes

instance classBody_agrees : Agrees M F st (classBody g) (classBody g') true := by
  unfold classBody
  exact .takes

instance elementName_step_agrees (e e' : Node) [Like F e e'] :
    Agrees M F st (elementName.step e) (elementName.step e') true := by
  unfold elementName.step
  exact .takes

instance elementName_agrees : Agrees M F st elementName elementName true := by
  unfold elementName
  exact .takes

instance embedded_agrees : Agrees M F st (embedded g) (embedded g') true := by
  unfold embedded
  exact .takes

instance elementAttribute_agrees : Agrees M F st (elementAttribute g) (elementAttribute g') true := by
  unfold elementAttribute
  exact .takes

instance content_agrees [st.Free] : Agrees M F st (content g) (content g') false := by
  unfold content
  exact .weaken

instance element_selfClosed_agrees (head head' : Option Node) (opening opening' : List Node)
    [hhead : Like F head head'] [Like F opening opening'] :
    Agrees M F st (element.selfClosed head opening) (element.selfClosed head' opening') true := by
  unfold element.selfClosed
  rw [Like.isSome hhead.out]
  exact .takes

instance element_agrees : Agrees M F st (element g) (element g') true := by
  unfold element
  dsimp only
  refine node_agrees (b := true) (h := Agrees.takes (h := (op_agrees "<").bind_fixed fun _ =>
    (optional_agrees elementName elementName).bind (c := true) fun q => ?_)) ..
  -- without a name there are neither type arguments nor attributes
  obtain ⟨head, head', hlike⟩ := q
  rcases Like.option_cases hlike with ⟨rfl, rfl⟩ | ⟨n, n', rfl, rfl, hn⟩
  · dsimp only
    exact .takes
  · have hn : Like F n n' := ⟨hn⟩
    dsimp only [Option.isSome_some]
    exact .takes

/-! ### Declarations -/

instance lastExpressions_agrees [st.Below 5] : Agrees M F st (lastExpressions g) (lastExpressions g') true := by
  unfold lastExpressions
  exact .takes

instance block_agrees : Agrees M F st (block g) (block g') true := by
  unfold block
  exact .takes

instance declarator_agrees [st.Below 0] : Agrees M F st (declarator g) (declarator g') true := by
  unfold declarator
  exact .takes

instance declares_agrees (kind : Kind) (ws : List String) :
    Agrees M F st (declares g kind ws) (declares g' kind ws) true := by
  unfold declares
  dsimp only
  refine node_agrees (b := true) (h := Agrees.takes (h := (oneOf_agrees ws).bind_fixed fun _ =>
    Agrees.bind (b := true) (c := false) .takes fun q => ?_)) ..
  rw [Like.getLast?_child?_isSome q.like]
  exact .weaken

instance variableStatement_agrees : Agrees M F st (variableStatement g) (variableStatement g') true := by
  unfold variableStatement
  exact .takes

instance functionStatement_agrees : Agrees M F st (functionStatement g) (functionStatement g') true := by
  unfold functionStatement
  dsimp only
  exact .takes

instance classStatement_agrees : Agrees M F st (classStatement g) (classStatement g') true := by
  unfold classStatement
  exact .takes

instance typeAlias_agrees : Agrees M F st (typeAlias g) (typeAlias g') true := by
  unfold typeAlias
  exact .takes

instance interface_agrees : Agrees M F st (interface g) (interface g') true := by
  unfold interface
  exact .takes

instance enumeration_agrees : Agrees M F st (enumeration g) (enumeration g') true := by
  unfold enumeration
  exact .takes

instance moduleStatement_agrees : Agrees M F st (moduleStatement g) (moduleStatement g') true := by
  unfold moduleStatement
  dsimp only
  refine node_agrees (b := true) (h := Agrees.takes (h := (oneOf_agrees _).bind_fixed fun _ =>
    Agrees.bind (b := true) (c := false) .takes fun n =>
    (optional_agrees (g .block) (g' .block)).bind (c := false) fun q => ?_)) ..
  obtain ⟨b, b', hlike⟩ := q
  rcases Like.option_cases hlike with ⟨rfl, rfl⟩ | ⟨n, n', rfl, rfl, hn⟩
  · exact .weaken
  · have hn : Like F n n' := ⟨hn⟩
    exact .weaken

instance importAlias_agrees : Agrees M F st importAlias importAlias true := by
  unfold importAlias
  exact .takes

instance ownDeclaration_agrees : Agrees M F st (ownDeclaration g) (ownDeclaration g') true := by
  unfold ownDeclaration
  exact .takes

instance declarationGo_agrees (n : Nat) : Agrees M F st (declarationGo g n) (declarationGo g' n) true := by
  induction n generalizing st with
  | zero =>
    unfold declarationGo
    exact .takes
  | succ n ih =>
    unfold declarationGo
    exact .takes

instance declaration_agrees : Agrees M F st (declaration g) (declaration g') true := by
  unfold declaration
  exact .takes

/-! ### Imports and exports -/

instance exportedName_agrees : Agrees M F st exportedName exportedName true := by
  unfold exportedName
  exact .takes

instance importSpecifier_anyNotAs_agrees : Agrees M F st importSpecifier.anyNotAs importSpecifier.anyNotAs true := by
  unfold importSpecifier.anyNotAs
  exact .takes

instance importSpecifier_stringAhead_agrees :
    Agrees M F st importSpecifier.stringAhead importSpecifier.stringAhead true := by
  unfold importSpecifier.stringAhead
  exact .takes

instance importSpecifier_agrees : Agrees M F st importSpecifier importSpecifier true := by
  unfold importSpecifier
  exact .takes

instance namedImports_agrees : Agrees M F st namedImports namedImports true := by
  unfold namedImports
  exact .takes

instance namespaceImport_agrees : Agrees M F st namespaceImport namespaceImport true := by
  unfold namespaceImport
  exact .takes

instance importClause_agrees : Agrees M F st importClause importClause true := by
  unfold importClause
  exact .takes

instance fromModule_agrees : Agrees M F st fromModule fromModule true := by
  unfold fromModule
  exact .takes

instance importAttributes_agrees : Agrees M F st (importAttributes g) (importAttributes g') true := by
  unfold importAttributes
  exact .takes

instance importStatement_bare_agrees : Agrees M F st importStatement.bare importStatement.bare true := by
  unfold importStatement.bare
  exact .takes

instance importStatement_required_agrees : Agrees M F st importStatement.required importStatement.required true := by
  unfold importStatement.required
  exact .takes

instance importStatement_bound_agrees : Agrees M F st importStatement.bound importStatement.bound true := by
  unfold importStatement.bound
  exact .takes

instance importStatement_typed_agrees : Agrees M F st importStatement.typed importStatement.typed true := by
  unfold importStatement.typed
  exact .takes

instance importStatement_agrees : Agrees M F st (importStatement g) (importStatement g') true := by
  unfold importStatement
  exact .takes

instance exportClause_agrees : Agrees M F st exportClause exportClause true := by
  unfold exportClause
  exact .takes

instance exported_value_agrees [st.Below 4] : Agrees M F st (exported.value g) (exported.value g') true := by
  unfold exported.value
  exact .takes

instance exported_agrees : Agrees M F st (exported g) (exported g') true := by
  unfold exported
  exact .takes

instance exportStatement_agrees : Agrees M F st (exportStatement g) (exportStatement g') true := by
  unfold exportStatement
  exact .takes

/-! ### Control flow -/

instance condition_agrees : Agrees M F st (condition g) (condition g') true := by
  unfold condition
  exact .takes

instance ifStatement_agrees : Agrees M F st (ifStatement g) (ifStatement g') true := by
  unfold ifStatement
  exact .takes

instance switchCase_agrees : Agrees M F st (switchCase g) (switchCase g') true := by
  unfold switchCase
  exact .takes

instance switchStatement_agrees : Agrees M F st (switchStatement g) (switchStatement g') true := by
  unfold switchStatement
  exact .takes

instance forEach_declared_agrees : Agrees M F st (forEach.declared g) (forEach.declared g') true := by
  unfold forEach.declared
  exact .takes

instance forEach_agrees : Agrees M F st (forEach g) (forEach g') true := by
  unfold forEach
  exact .takes

instance forCount_agrees : Agrees M F st (forCount g) (forCount g') true := by
  unfold forCount
  exact .takes

instance whileStatement_agrees (w : String) : Agrees M F st (whileStatement g w) (whileStatement g' w) true := by
  unfold whileStatement
  exact .takes

instance doStatement_agrees : Agrees M F st (doStatement g) (doStatement g') true := by
  unfold doStatement
  exact .takes

instance tryStatement_agrees : Agrees M F st (tryStatement g) (tryStatement g') true := by
  unfold tryStatement
  exact .takes

instance jump_agrees (w : String) : Agrees M F st (jump w) (jump w) true := by
  unfold jump
  exact .takes

instance returnStatement_agrees : Agrees M F st (returnStatement g) (returnStatement g') true := by
  unfold returnStatement
  exact .takes

instance throwStatement_agrees : Agrees M F st (throwStatement g) (throwStatement g') true := by
  unfold throwStatement
  exact .takes

instance labeled_agrees : Agrees M F st (labeled g) (labeled g') true := by
  unfold labeled
  exact .takes

instance expressionStatement_agrees [st.Below 5] :
    Agrees M F st (expressionStatement g) (expressionStatement g') true := by
  unfold expressionStatement
  exact .takes

instance braced_agrees [st.Below 5] : Agrees M F st (braced g) (braced g') true := by
  unfold braced
  exact .takes

instance statement_agrees [st.Below 5] : Agrees M F st (statement g) (statement g') true := by
  unfold statement
  refine .bind_fixed (b := false) inferInstance fun c => ?_
  split
  case h_4 =>
    refine .bind_fixed (b := false) inferInstance fun w => ?_
    split <;> exact .takes
  all_goals exact .takes

end

end TestMigration.Grammar
